import Mathlib.Data.Set.Finite.Basic
import Mathlib.Logic.Relation
import Mathlib.Order.WellFounded
import DocStore.Proofs.Storage.Intents

-- Transactions that reserve their keys one by one, each in ascending order, never wait for each
-- other in a circle.
namespace DocStore

-- How far a transaction has come with its keys: those it has, and those it still needs.
structure Quest where
  taken : List Bytes
  todo : List Bytes

-- The transactions that have asked for keys, by their numbers.
structure Contest where
  table : IntentTable
  quests : SortedMap Nat Quest

namespace Contest

inductive Move where
  -- a transaction asks for keys, the one time that it does
  | ask (id : Nat) (keys : List Bytes)
  -- it reserves the next of its keys, unless somebody else has it
  | take (id : Nat)
  -- its context ends while it waits
  | giveUp (id : Nat)
  -- it has all its keys, and frees some keys
  | release (id : Nat) (keys : List Bytes)

def start : Contest := ⟨IntentTable.empty, SortedMap.empty⟩

def ask (x : Contest) (id : Nat) (keys : List Bytes) : Contest :=
  match x.quests.get? id with
  | some _ => x
  | none => { x with quests := x.quests.insert id ⟨[], IntentTable.order keys⟩ }

def take (x : Contest) (id : Nat) : Contest :=
  match x.quests.get? id with
  | some ⟨taken, key :: rest⟩ =>
    match x.table.take? id key with
    | some table => ⟨table, x.quests.insert id ⟨taken ++ [key], rest⟩⟩
    | none => x
  | _ => x

def giveUp (x : Contest) (id : Nat) : Contest :=
  match x.quests.get? id with
  | some ⟨taken, key :: _⟩ =>
    match x.table.take? id key with
    | some _ => x
    | none => ⟨x.table.drop taken, x.quests.insert id ⟨[], []⟩⟩
  | _ => x

def release (x : Contest) (id : Nat) (keys : List Bytes) : Contest :=
  match x.quests.get? id with
  | some ⟨taken, []⟩ =>
    ⟨x.table.release id keys, x.quests.insert id ⟨taken.filter (fun key => key ∉ keys), []⟩⟩
  | _ => x

def step (x : Contest) : Move → Contest
  | .ask id keys => x.ask id keys
  | .take id => x.take id
  | .giveUp id => x.giveUp id
  | .release id keys => x.release id keys

def run (moves : List Move) : Contest := moves.foldl step start

-- The key that a transaction needs next.
def next? (x : Contest) (id : Nat) : Option Bytes :=
  (x.quests.get? id).bind (fun quest => quest.todo.head?)

def WaitsFor (x : Contest) (id other : Nat) : Prop :=
  ∃ key, x.next? id = some key ∧ x.table.owner? key = some other ∧ other ≠ id

-- A transaction that needs no key any more, or can have the next one.
def Proceeds (x : Contest) (id : Nat) : Prop :=
  (x.quests.get? id).isSome ∧ ∀ key, x.next? id = some key → (x.table.take? id key).isSome

-- What is known at any time: the keys that a transaction still needs come behind those it has, and
-- all keys that are reserved are among the latter.
structure Orderly (x : Contest) : Prop where
  ordered : ∀ id quest, x.quests.get? id = some quest →
    (quest.taken ++ quest.todo).Pairwise (· < ·)
  owns : ∀ key id, x.table.owner? key = some id ↔
    ∃ quest, x.quests.get? id = some quest ∧ key ∈ quest.taken

namespace Orderly

variable {x : Contest} {id other : Nat}

theorem start : start.Orderly where
  ordered id quest h := by cases h
  owns key id := by simp [Contest.start, IntentTable.owner?, IntentTable.empty]

-- Only one transaction goes on at a time.
theorem goesOn (h : x.Orderly) {quest : Quest} {table : IntentTable}
    (hordered : (quest.taken ++ quest.todo).Pairwise (· < ·))
    (hown : ∀ key, table.owner? key = some id ↔ key ∈ quest.taken)
    (hothers : ∀ key other, other ≠ id →
      (table.owner? key = some other ↔ x.table.owner? key = some other)) :
    Orderly ⟨table, x.quests.insert id quest⟩ where
  ordered other quest' hget := by
    rw [SortedMap.get?_insert] at hget
    split at hget
    · cases hget
      exact hordered
    · exact h.ordered other quest' hget
  owns key other := by
    simp only [SortedMap.get?_insert]
    by_cases hsame : id = other
    · subst hsame
      simp [hown]
    · simp only [hsame, ite_false]
      rw [hothers key other (Ne.symm hsame), h.owns]

theorem ask (h : x.Orderly) (id : Nat) (keys : List Bytes) : (x.ask id keys).Orderly := by
  unfold Contest.ask
  split
  · exact h
  · next hnone =>
    refine h.goesOn (IntentTable.pairwise_order keys) (fun key => ?_) (fun _ _ _ => Iff.rfl)
    rw [h.owns, hnone]
    simp

theorem take (h : x.Orderly) (id : Nat) : (x.take id).Orderly := by
  unfold Contest.take
  split
  · next taken key rest hquest =>
    split
    · next table htaken =>
      obtain ⟨hfree, howner⟩ := IntentTable.take?_eq_some htaken
      have hown : ∀ other, x.table.owner? other = some id ↔ other ∈ taken := by
        intro other
        rw [h.owns, hquest]
        simp
      refine h.goesOn ?_ (fun other => ?_) (fun k other hne => ?_)
      · simpa using h.ordered id _ hquest
      · rw [howner, List.mem_append, List.mem_singleton]
        by_cases hk : key = other
        · simp [hk]
        · simp [hk, Ne.symm hk, hown]
      · rw [howner]
        by_cases hk : key = k
        · subst hk
          rcases hfree with hnone | hmine
          · simp [hnone, Ne.symm hne]
          · simp [hmine]
        · rw [if_neg hk]
    · exact h
  · exact h

theorem giveUp (h : x.Orderly) (id : Nat) : (x.giveUp id).Orderly := by
  unfold Contest.giveUp
  split
  · next taken key rest hquest =>
    split
    · exact h
    · have hown : ∀ other, x.table.owner? other = some id ↔ other ∈ taken := by
        intro other
        rw [h.owns, hquest]
        simp
      refine h.goesOn List.Pairwise.nil (fun other => ?_) (fun k other hne => ?_)
      · rw [IntentTable.owner?_drop]
        by_cases hm : other ∈ taken
        · simp [hm]
        · simp [hm, hown]
      · rw [IntentTable.owner?_drop]
        by_cases hm : k ∈ taken
        · simp [hm, (hown k).mpr hm, Ne.symm hne]
        · rw [if_neg hm]
  · exact h

theorem release (h : x.Orderly) (id : Nat) (keys : List Bytes) : (x.release id keys).Orderly := by
  unfold Contest.release
  split
  · next taken hquest =>
    have hown : ∀ other, x.table.owner? other = some id ↔ other ∈ taken := by
      intro other
      rw [h.owns, hquest]
      simp
    refine h.goesOn ?_ (fun other => ?_) (fun k other hne => ?_)
    · have hordered := h.ordered id _ hquest
      rw [List.append_nil] at hordered ⊢
      exact hordered.filter _
    · rw [IntentTable.owner?_release]
      simp only [List.mem_filter, ← hown, decide_eq_true_eq]
      by_cases hm : other ∈ keys
      · by_cases ho : x.table.owner? other = some id <;> simp [hm, ho]
      · simp [hm]
    · rw [IntentTable.owner?_release]
      split
      · next hmine => simp [hmine.2, Ne.symm hne]
      · rfl
  · exact h

theorem step (h : x.Orderly) (move : Move) : (x.step move).Orderly := by
  cases move with
  | ask id keys => exact h.ask id keys
  | take id => exact h.take id
  | giveUp id => exact h.giveUp id
  | release id keys => exact h.release id keys

theorem run (moves : List Move) : (Contest.run moves).Orderly := by
  induction moves using List.reverseRecOn with
  | nil => exact start
  | append_singleton moves move ih =>
      rw [Contest.run, List.foldl_append]
      exact ih.step move

-- Whoever waits needs a smaller key than the one it waits for.
theorem lt_of_waitsFor (h : x.Orderly) (hwaits : x.WaitsFor id other) {key next : Bytes}
    (hkey : x.next? id = some key) (hnext : x.next? other = some next) : key < next := by
  obtain ⟨key', hkey', howner, -⟩ := hwaits
  obtain rfl : key' = key := Option.some.inj (hkey'.symm.trans hkey)
  obtain ⟨quest, hquest, htaken⟩ := (h.owns key' other).mp howner
  have hhead : quest.todo.head? = some next := by simpa [next?, hquest] using hnext
  have hordered := h.ordered other quest hquest
  rw [List.pairwise_append] at hordered
  exact hordered.2.2 key' htaken next (List.mem_of_head? hhead)

theorem lt_of_transGen (h : x.Orderly) (hwait : Relation.TransGen x.WaitsFor id other)
    {key next : Bytes} (hkey : x.next? id = some key) (hnext : x.next? other = some next) :
    key < next := by
  induction hwait generalizing next with
  | single hwaits => exact h.lt_of_waitsFor hwaits hkey hnext
  | tail _ hwaits ih =>
      have hlast := hwaits
      obtain ⟨middle, hmiddle, -⟩ := hlast
      exact Std.lt_trans (ih hmiddle) (h.lt_of_waitsFor hwaits hmiddle hnext)

theorem acyclic (h : x.Orderly) (id : Nat) : ¬Relation.TransGen x.WaitsFor id id := by
  intro hcycle
  obtain ⟨_, ⟨key, hkey, -⟩, -⟩ := Relation.TransGen.head'_iff.mp hcycle
  exact Std.lt_irrefl (h.lt_of_transGen hcycle hkey hkey)

-- A transaction that cannot go on waits for somebody.
theorem waitsFor_of_not_proceeds {quest : Quest} (hquest : x.quests.get? id = some quest)
    (hnot : ¬x.Proceeds id) : ∃ other, x.WaitsFor id other := by
  unfold Proceeds at hnot
  rw [hquest] at hnot
  simp only [Option.isSome_some, true_and, not_forall] at hnot
  obtain ⟨key, hkey, hnone⟩ := hnot
  obtain ⟨other, howner, hne⟩ :=
    IntentTable.take?_eq_none_iff.mp (Option.not_isSome_iff_eq_none.mp hnone)
  exact ⟨other, key, hkey, howner, hne⟩

-- The keys that are waited for ascend along a chain of waiting transactions, and only so many keys
-- are reserved.
theorem exists_proceeds (h : x.Orderly) (hwaits : x.WaitsFor id other) :
    ∃ last, Relation.TransGen x.WaitsFor id last ∧ x.Proceeds last := by
  have hfinite : Finite {key // key ∈ x.table.owners.keys} :=
    List.finite_toSet x.table.owners.keys
  let above (k l : {key // key ∈ x.table.owners.keys}) : Prop := l.1 < k.1
  have htrans : IsTrans _ above := ⟨fun _ _ _ hab hbc => Std.lt_trans hbc hab⟩
  have hirrefl : Std.Irrefl above := ⟨fun _ => Std.lt_irrefl⟩
  have hwf : WellFounded above := Finite.wellFounded_of_trans_of_irrefl above
  have hreserved : ∀ {key owner}, x.table.owner? key = some owner → key ∈ x.table.owners.keys :=
    fun howner => (SortedMap.mem_keys_iff _).mpr (Option.isSome_of_eq_some howner)
  obtain ⟨key, hkey, howner, hne⟩ := hwaits
  generalize hreached : (⟨key, hreserved howner⟩ : {key // key ∈ x.table.owners.keys}) = reached
  induction reached using hwf.induction generalizing id other key with
  | _ reached ih =>
      subst hreached
      have hfirst : x.WaitsFor id other := ⟨key, hkey, howner, hne⟩
      by_cases hgoes : x.Proceeds other
      · exact ⟨other, .single hfirst, hgoes⟩
      · obtain ⟨quest, hquest, -⟩ := (h.owns key other).mp howner
        obtain ⟨third, next, hnext, howner', hne'⟩ := waitsFor_of_not_proceeds hquest hgoes
        have hlt : key < next := h.lt_of_waitsFor hfirst hkey hnext
        obtain ⟨last, hchain, hlast⟩ :=
          ih ⟨next, hreserved howner'⟩ hlt next hnext howner' hne' rfl
        exact ⟨last, .head hfirst hchain, hlast⟩

end Orderly

section Alone

variable {x : Contest} {id : Nat}

theorem foldl_take_of_stuck (h : x.take id = x) (n : Nat) :
    (List.replicate n (Move.take id)).foldl step x = x := by
  induction n with
  | zero => rfl
  | succ n ih =>
      rw [List.replicate_succ, List.foldl_cons, show x.step (.take id) = x from h, ih]

-- A transaction whose steps nobody interrupts reserves what there is to reserve.
theorem foldl_take {quest : Quest} (hquest : x.quests.get? id = some quest) {n : Nat}
    (hn : quest.todo.length ≤ n) :
    let y := (List.replicate n (Move.take id)).foldl step x
    let (_, taken, table) := x.table.takeAll id quest.todo
    y.table = table ∧
      y.quests.get? id = some ⟨quest.taken ++ taken, quest.todo.drop taken.length⟩ := by
  obtain ⟨taken, todo⟩ := quest
  induction todo generalizing x taken n with
  | nil =>
      have hstuck : x.take id = x := by simp only [take, hquest]
      rw [foldl_take_of_stuck hstuck]
      exact ⟨rfl, by simpa [IntentTable.takeAll] using hquest⟩
  | cons key rest ih =>
      obtain ⟨n, rfl⟩ : ∃ m, n = m + 1 := Nat.exists_eq_succ_of_ne_zero (by simp at hn; omega)
      cases htake : x.table.take? id key with
      | none =>
          have hstuck : x.take id = x := by simp only [take, hquest, htake]
          rw [foldl_take_of_stuck hstuck]
          simpa [IntentTable.takeAll, htake] using hquest
      | some table =>
          have hstep : x.take id = ⟨table, x.quests.insert id ⟨taken ++ [key], rest⟩⟩ := by
            simp only [take, hquest, htake]
          have hquest' : (x.take id).quests.get? id = some ⟨taken ++ [key], rest⟩ := by
            rw [hstep, SortedMap.get?_insert, if_pos rfl]
          have hrest := ih (taken ++ [key]) hquest' (n := n) (by simpa using hn)
          rw [hstep] at hrest
          simp only [List.replicate_succ, List.foldl_cons, IntentTable.takeAll, htake]
          simpa [step, hstep] using hrest

-- Done in one go, the steps of a transaction come to what asking for all keys at once comes to.
theorem acquire_alone (hnew : x.quests.get? id = none) (keys : List Bytes) :
    let y := (List.replicate (IntentTable.order keys).length (Move.take id)).foldl step
      (x.ask id keys)
    match x.table.acquire id keys with
    | (.granted, taken, table) => y.table = table ∧ y.quests.get? id = some ⟨taken, []⟩
    | (.waiting, _, table) => (∃ other, y.WaitsFor id other) ∧ (y.giveUp id).table = table := by
  have hask : x.ask id keys =
      { x with quests := x.quests.insert id ⟨[], IntentTable.order keys⟩ } := by
    simp only [ask, hnew]
  have hquest : (x.ask id keys).quests.get? id = some ⟨[], IntentTable.order keys⟩ := by
    rw [hask, SortedMap.get?_insert, if_pos rfl]
  have hall := foldl_take hquest (Nat.le_refl _)
  simp only [hask, List.nil_append] at hall ⊢
  have hacquire : x.table.acquire id keys =
    match x.table.takeAll id (IntentTable.order keys) with
    | (.granted, taken, table) => (.granted, taken, table)
    | (.waiting, taken, table) => (.waiting, [], table.drop taken) := rfl
  rcases htaken : x.table.takeAll id (IntentTable.order keys) with ⟨_ | _, taken, table⟩
  · rw [htaken] at hacquire hall
    rw [hacquire]
    obtain ⟨-, -, hdone⟩ := IntentTable.takeAll_spec htaken
    obtain rfl := hdone rfl
    simpa using hall
  · rw [htaken] at hacquire hall
    rw [hacquire]
    obtain ⟨barred, rest, horder, hbars⟩ := IntentTable.takeAll_waiting htaken
    obtain ⟨htable, hreached⟩ := hall
    rw [horder, List.drop_left] at hreached
    rw [horder] at htable
    have hnone : table.take? id barred = none := IntentTable.take?_eq_none_iff.mpr hbars
    obtain ⟨owner, howner, hne⟩ := hbars
    refine ⟨⟨owner, barred, ?_, ?_, hne⟩, ?_⟩
    · rw [horder, next?, hreached]
      rfl
    · rw [horder, htable]
      exact howner
    · simp only [horder, giveUp, hreached, htable, hnone]

end Alone

-- However the steps of transactions follow each other, they never wait for each other in a circle,
-- and behind each one that waits there is one that can go on.
theorem deadlock_free (moves : List Move) :
    (∀ id, ¬Relation.TransGen (run moves).WaitsFor id id) ∧
      ∀ id other, (run moves).WaitsFor id other →
        ∃ last, Relation.TransGen (run moves).WaitsFor id last ∧ (run moves).Proceeds last :=
  ⟨(Orderly.run moves).acyclic, fun _ _ => (Orderly.run moves).exists_proceeds⟩

-- Three transactions, the third of which waits for the second, and the second for the first.
def queueing : List Move :=
  [.ask 1 [[3]], .ask 2 [[3], [2], [3]], .ask 3 [[2], [1]], .take 2, .take 3, .take 1, .take 2,
    .take 3]

theorem deadlock_free_queueing :
    (run queueing).WaitsFor 3 2 ∧ (run queueing).WaitsFor 2 1 ∧
      ∃ last, Relation.TransGen (run queueing).WaitsFor 3 last ∧ (run queueing).Proceeds last := by
  have hwaits : (run queueing).WaitsFor 3 2 := ⟨[2], by decide, by decide, by decide⟩
  exact ⟨hwaits, ⟨[3], by decide, by decide, by decide⟩, (deadlock_free queueing).2 3 2 hwaits⟩

end Contest

end DocStore
