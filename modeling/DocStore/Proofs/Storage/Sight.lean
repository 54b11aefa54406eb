import Mathlib.Data.List.Forall2
import DocStore.Proofs.Storage.Overlay
import DocStore.Proofs.Storage.Session

namespace DocStore

section Pairing

variable {α β : Type} {R : α → β → Prop} {as : List α} {bs : List β}

theorem forall₂_getElem? (h : List.Forall₂ R as bs) {n : Nat} {b : β} (hb : bs[n]? = some b) :
    ∃ a, as[n]? = some a ∧ R a b := by
  induction h generalizing n with
  | nil => simp at hb
  | cons hr _ ih =>
      cases n with
      | zero =>
          cases hb
          exact ⟨_, rfl, hr⟩
      | succ n => exact ih hb

theorem forall₂_getElem?_left (h : List.Forall₂ R as bs) {n : Nat} {a : α}
    (ha : as[n]? = some a) : ∃ b, bs[n]? = some b ∧ R a b := by
  obtain ⟨b, hb, hr⟩ := forall₂_getElem? h.flip ha
  exact ⟨b, hb, hr⟩

theorem forall₂_set_modify (h : List.Forall₂ R as bs) {n : Nat} {a : α} {f : β → β}
    (hn : ∀ b, bs[n]? = some b → R a (f b)) : List.Forall₂ R (as.set n a) (bs.modify n f) := by
  induction h generalizing n with
  | nil => simp
  | cons hr hrest ih =>
      cases n with
      | zero => exact .cons (hn _ rfl) hrest
      | succ n => exact .cons hr (ih (fun b hb => hn b hb))

theorem forall₂_set_modify_of (h : List.Forall₂ R as bs) {n : Nat} {a : α} {b : β} {f : β → β}
    (hb : bs[n]? = some b) (hr : R a (f b)) : List.Forall₂ R (as.set n a) (bs.modify n f) := by
  refine forall₂_set_modify h (fun b' hb' => ?_)
  rw [hb, Option.some.injEq] at hb'
  exact hb' ▸ hr

theorem forall₂_modify (h : List.Forall₂ R as bs) {n : Nat} {f : α → α} {g : β → β}
    (hn : ∀ a b, as[n]? = some a → bs[n]? = some b → R a b → R (f a) (g b)) :
    List.Forall₂ R (as.modify n f) (bs.modify n g) := by
  induction h generalizing n with
  | nil => simp
  | cons hr hrest ih =>
      cases n with
      | zero => exact .cons (hn _ _ rfl rfl hr) hrest
      | succ n => exact .cons hr (ih (fun a b ha hb => hn a b ha hb))

theorem forall₂_concat (h : List.Forall₂ R as bs) {a : α} {b : β} (hr : R a b) :
    List.Forall₂ R (as ++ [a]) (bs ++ [b]) := List.rel_append h (.cons hr .nil)

end Pairing

-- An iterator has in it what it is to yield. One that has failed may have lost some of that.
def Iter.Follows (map : SortedMap Bytes Bytes) (it : Iter) (p : Prospect) : Prop :=
  match it with
  | .failed _ => False
  | .walk overlay => overlay.Sound map ∧ (overlay.pending map).Sublist p.left ∧
      (p.broken = false → overlay.pending map = p.left)

namespace Prospect

variable {p : Prospect} {signal : Signal}

-- Whoever has yet to yield a pair and others behind it finds them in what is left.
private theorem sublist_behind {pair : Pair} {rest left : List Pair}
    (h : (pair :: rest).Sublist left) :
    rest.Sublist (left.dropWhile (fun e => e ≠ pair)).tail := by
  induction left with
  | nil => cases h
  | cons first others ih =>
      by_cases hf : first = pair
      · subst hf
        simpa using List.cons_sublist_cons.mp h
      · have hothers : (pair :: rest).Sublist others := by
          cases h with
          | cons _ h => exact h
          | cons_cons _ _ => exact absurd rfl hf
        simpa [hf] using ih hothers

-- As long as the context is live, the next pair comes, if there is one.
theorem eq_of_admits {left : List Pair} {item : Option (Except Error Pair)}
    (h : Admits ⟨left, false⟩ .go item) :
    item = left.head?.map .ok ∧ advance ⟨left, false⟩ item = ⟨left.tail, false⟩ := by
  match item with
  | none =>
      obtain rfl : left = [] := by simpa [Admits] using h
      exact ⟨rfl, rfl⟩
  | some (.error e) => cases h
  | some (.ok pair) =>
      obtain ⟨rest, rfl⟩ : ∃ rest, left = pair :: rest :=
        List.head?_eq_some_iff.mp (by simpa [Admits] using h)
      exact ⟨rfl, by simp [advance]⟩

-- Nothing comes back that has been yielded.
theorem advance_sublist (p : Prospect) (item : Option (Except Error Pair)) :
    (p.advance item).left.Sublist p.left := by
  match item with
  | none => exact .refl _
  | some (.error _) => exact .refl _
  | some (.ok _) => exact (List.tail_sublist _).trans (List.dropWhile_sublist _)

-- An iterator that yields what it has in it does what is expected of it.
theorem follows_of_yields {map : SortedMap Bytes Bytes} {overlay : Overlay}
    {result : Option (Except Error Pair) × Overlay} (h : (Iter.walk overlay).Follows map p)
    (hy : Overlay.Yields map signal.check (overlay.pending map) result) :
    p.Admits signal result.1 ∧ (Iter.walk result.2).Follows map (p.advance result.1) := by
  obtain ⟨-, hsub, hall⟩ := h
  obtain ⟨hsound, ⟨hitem, hrest⟩ | ⟨e, hstate, hitem, hrest⟩⟩ := hy
  · cases hpending : overlay.pending map with
    | nil =>
        rw [hpending] at hitem hrest hall
        rw [hitem]
        refine ⟨?_, hsound, by simp [hrest], fun hb => hrest.trans (hall hb)⟩
        cases hb : p.broken with
        | true => exact .inl hb
        | false => exact .inr (hall hb).symm
    | cons pair rest =>
        rw [hpending] at hitem hrest hsub hall
        rw [hitem]
        refine ⟨?_, hsound, ?_, fun hb => ?_⟩
        · cases hb : p.broken with
          | true => simpa [Admits, hb] using hsub.subset (List.mem_cons_self ..)
          | false => simp [Admits, hb, ← hall hb]
        · rw [hrest]
          exact sublist_behind hsub
        · have hleft : pair :: rest = p.left := hall hb
          simp [hrest, advance, ← hleft]
  · rw [hitem]
    exact ⟨hstate, hsound, hrest.trans hsub, fun hb => by simp [advance] at hb⟩

end Prospect

namespace Kv

-- A handle that is in use sees its own writes over a map.
structure Sees (kv : Kv) (h : Handle) (below : SortedMap Bytes Bytes)
    (writes : SortedMap Bytes (Option Bytes)) : Prop where
  usable : Kv.usable h = .ok ()
  buffered : bufferedWrites h = writes
  below? : ∀ key, kv.below? h key = below.get? key
  scan : ∀ range limit, kv.scan h range limit = (range.select below).take limit

namespace Sees

variable {kv : Kv} {h : Handle} {below : SortedMap Bytes Bytes}
  {writes : SortedMap Bytes (Option Bytes)}

theorem buffered?_eq (hs : kv.Sees h below writes) (key : Bytes) :
    buffered? h key = writes.get? key := by
  rw [← hs.buffered]
  cases h <;> rfl

theorem get (hs : kv.Sees h below writes) (signal : Signal) (key : Bytes) :
    kv.get h signal key =
      signal.check.map (fun _ => (below.setAll writes.toList).get? key) := by
  rw [SortedMap.get?_setAll, ← hs.below? key, ← hs.buffered?_eq key]
  simp only [Kv.get, hs.usable]
  cases signal.check with
  | error e => rfl
  | ok _ =>
      simp only [bind, Except.bind, Except.map]
      cases buffered? h key <;> rfl

theorem iter (hs : kv.Sees h below writes) (range : KeyRange) :
    (Kv.iter h range).Follows below ⟨range.select (below.setAll writes.toList), false⟩ := by
  simp only [Kv.iter, hs.usable, hs.buffered]
  refine ⟨Overlay.sound_ofScan .., ?_, fun _ => Overlay.pending_ofScan ..⟩
  rw [Overlay.pending_ofScan]

theorem pull (hs : kv.Sees h below writes) (signal : Signal) {it : Iter} {p : Prospect}
    (hf : it.Follows below p) :
    p.Admits signal (kv.pull h signal it).1 ∧
      (kv.pull h signal it).2.Follows below (p.advance (kv.pull h signal it).1) := by
  match it with
  | .failed _ => exact hf.elim
  | .walk overlay =>
      refine Prospect.follows_of_yields hf (Overlay.pull_yields (fun range limit => ?_) hf.1)
      rw [hs.scan]
      cases signal.check <;> rfl

end Sees

end Kv

end DocStore
