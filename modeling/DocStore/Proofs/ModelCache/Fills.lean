import Mathlib.Data.List.Basic
import DocStore.Proofs.ModelCache

-- Models that are brought to the cache some time after their generation was noted.
namespace DocStore

theorem Assoc.get?_map {κ α β : Type} [DecidableEq κ] (f : α → β) (key : κ)
    (entries : List (κ × α)) :
    get? key (entries.map (fun e => (e.1, f e.2))) = (get? key entries).map f := by
  induction entries with
  | nil => rfl
  | cons e rest ih =>
      simp only [List.map_cons, get?, ih]
      split <;> rfl

theorem SortedMap.get?_mapValues {κ α β : Type} [LT κ] [DecidableEq κ] (m : SortedMap κ α)
    (f : α → β) (key : κ) : (m.mapValues f).get? key = (m.get? key).map f :=
  Assoc.get?_map f key m.entries

namespace ModelCache

inductive Use where
  | get (id : String)
  | generation (id : String)
  | insert (model : Model) (generation : Nat)
  | invalidate (id : String)
  | clear

def serve (cache : ModelCache) : Use → ModelCache
  | .get _ => cache
  | .generation _ => cache
  | .insert model generation => (cache.insert model generation).2
  | .invalidate id => cache.invalidate id
  | .clear => cache.clear

def run (cache : ModelCache) (uses : List Use) : ModelCache := uses.foldl serve cache

-- The cache counts the generations of an id.
def Counts (cache : ModelCache) (id : String) : Prop := (cache.generations.get? id).isSome

instance (cache : ModelCache) (id : String) : Decidable (cache.Counts id) :=
  inferInstanceAs (Decidable (_ = true))

-- It begins to do so when a model of that name is brought to it or made void.
def Use.Touches (id : String) : Use → Prop
  | .insert model _ => model.id = id
  | .invalidate name => name = id
  | _ => False

-- What makes a new generation of an id.
def Voids (cache : ModelCache) (id : String) : Use → Prop
  | .invalidate name => name = id
  | .clear => cache.Counts id
  | _ => False

variable {cache : ModelCache} {id : String} {use : Use}

theorem generation_clear (cache : ModelCache) (id : String) : cache.clear.generation id =
    if cache.Counts id then cache.generation id + 1 else cache.generation id := by
  simp only [generation, clear, SortedMap.get?_mapValues]
  split
  · next hcounts =>
    obtain ⟨current, hcurrent⟩ := Option.isSome_iff_exists.mp hcounts
    rw [hcurrent]
    rfl
  · next hcounts =>
    rw [Option.not_isSome_iff_eq_none.mp hcounts]
    rfl

theorem counts_serve_iff (cache : ModelCache) (use : Use) (id : String) :
    (cache.serve use).Counts id ↔ cache.Counts id ∨ use.Touches id := by
  cases use with
  | get name => simp [serve, Use.Touches]
  | generation name => simp [serve, Use.Touches]
  | insert model generation =>
      have hnoted : (cache.insert model generation).2.generations =
          cache.generations.insert model.id (cache.generation model.id) := by
        simp only [insert]
        split
        · rfl
        · split <;> rfl
      simp only [serve, Counts, hnoted, SortedMap.get?_insert, Use.Touches]
      split <;> simp_all
  | invalidate name =>
      simp only [serve, invalidate, Counts, SortedMap.get?_insert, Use.Touches]
      split <;> simp_all
  | clear => simp [serve, clear, Counts, SortedMap.get?_mapValues, Use.Touches]

theorem generation_serve_of_voids (h : cache.Voids id use) :
    (cache.serve use).generation id = cache.generation id + 1 := by
  cases use with
  | invalidate name =>
      rw [serve, generation_invalidate]
      exact if_pos h
  | clear =>
      rw [serve, generation_clear]
      exact if_pos h
  | get | generation | insert => exact h.elim

theorem generation_serve_of_not_voids (h : ¬cache.Voids id use) :
    (cache.serve use).generation id = cache.generation id := by
  cases use with
  | get name => rfl
  | generation name => rfl
  | insert model generation => exact generation_insert cache model generation id
  | invalidate name =>
      rw [serve, generation_invalidate]
      exact if_neg h
  | clear =>
      rw [serve, generation_clear]
      exact if_neg h

-- One of some operations makes a new generation.
def Voided (cache : ModelCache) (id : String) (uses : List Use) : Prop :=
  ∃ before use after, uses = before ++ use :: after ∧ (cache.run before).Voids id use

theorem voided_cons_iff {uses : List Use} :
    cache.Voided id (use :: uses) ↔ cache.Voids id use ∨ (cache.serve use).Voided id uses := by
  constructor
  · rintro ⟨_ | ⟨first, before⟩, last, after, heq, hvoids⟩
    · obtain ⟨rfl, rfl⟩ := List.cons.inj heq
      exact .inl hvoids
    · obtain ⟨rfl, rfl⟩ := List.cons.inj heq
      exact .inr ⟨before, last, after, rfl, hvoids⟩
  · rintro (hvoids | ⟨before, last, after, rfl, hvoids⟩)
    · exact ⟨[], use, uses, rfl, hvoids⟩
    · exact ⟨use :: before, last, after, rfl, hvoids⟩

theorem le_generation_run (cache : ModelCache) (uses : List Use) (id : String) :
    cache.generation id ≤ (cache.run uses).generation id := by
  induction uses generalizing cache with
  | nil => exact Nat.le_refl _
  | cons use rest ih =>
      refine Nat.le_trans ?_ (ih (cache.serve use))
      by_cases h : cache.Voids id use
      · rw [generation_serve_of_voids h]
        exact Nat.le_succ _
      · exact Nat.le_of_eq (generation_serve_of_not_voids h).symm

-- The generation of an id tells whether it was made void.
theorem generation_run_eq_iff (cache : ModelCache) (uses : List Use) (id : String) :
    (cache.run uses).generation id = cache.generation id ↔ ¬cache.Voided id uses := by
  induction uses generalizing cache with
  | nil => simp [run, Voided]
  | cons use rest ih =>
      rw [voided_cons_iff, show cache.run (use :: rest) = (cache.serve use).run rest from rfl]
      by_cases h : cache.Voids id use
      · have hle := le_generation_run (cache.serve use) rest id
        rw [generation_serve_of_voids h] at hle
        simp only [h, true_or, not_true_eq_false, iff_false]
        omega
      · rw [← generation_serve_of_not_voids h, ih]
        simp [h]

theorem counts_run_iff (cache : ModelCache) (uses : List Use) (id : String) :
    (cache.run uses).Counts id ↔ cache.Counts id ∨ ∃ use ∈ uses, use.Touches id := by
  induction uses generalizing cache with
  | nil => simp [run]
  | cons use rest ih =>
      rw [show cache.run (use :: rest) = (cache.serve use).run rest from rfl, ih, counts_serve_iff]
      simp [or_assoc]

-- A model is invalidated, or all of them are given up at a time when its generations are counted.
def Spoils (past uses : List Use) (id : String) : Prop :=
  .invalidate id ∈ uses ∨
    ∃ before after, uses = before ++ .clear :: after ∧ ∃ use ∈ past ++ before, use.Touches id

theorem voided_iff (past uses : List Use) (id : String) :
    (empty.run past).Voided id uses ↔ Spoils past uses id := by
  have hcounts : ∀ before, ((empty.run past).run before).Counts id ↔
      ∃ use ∈ past ++ before, use.Touches id := by
    intro before
    rw [show (empty.run past).run before = empty.run (past ++ before) from
      (List.foldl_append ..).symm, counts_run_iff]
    simp [Counts, empty]
  constructor
  · rintro ⟨before, use, after, rfl, hvoids⟩
    cases use with
    | invalidate name =>
        obtain rfl : name = id := hvoids
        exact .inl (by simp)
    | clear => exact .inr ⟨before, after, rfl, (hcounts before).mp hvoids⟩
    | get | generation | insert => exact hvoids.elim
  · rintro (hm | ⟨before, after, rfl, htouched⟩)
    · obtain ⟨before, after, rfl⟩ := List.append_of_mem hm
      exact ⟨before, .invalidate id, after, rfl, rfl⟩
    · exact ⟨before, .clear, after, rfl, (hcounts before).mpr htouched⟩

theorem insert_of_past {model : Model} {generation : Nat}
    (h : cache.generation model.id ≠ generation) :
    (cache.insert model generation).1 = model ∧
      (cache.insert model generation).2.entries = cache.entries := by
  simp [insert, h]

theorem insert_of_current {model : Model} {generation : Nat}
    (h : cache.generation model.id = generation) :
    (cache.insert model generation).1 = (cache.get? model.id).getD model ∧
      (cache.insert model generation).2.get? model.id =
        some (cache.insert model generation).1 := by
  simp only [insert, ne_eq, h, not_true_eq_false, ite_false, get?]
  cases hkept : cache.entries.get? model.id with
  | none => simp [SortedMap.get?_insert]
  | some kept => simp [hkept]

-- A model that is brought to the cache under a generation that was noted before some operations is
-- answered and not kept, if it was spoiled meanwhile, and kept or answered from the cache if not.
theorem insert_after (past uses : List Use) (model : Model) :
    let cache := empty.run past
    let later := cache.run uses
    let inserted := later.insert model (cache.generation model.id)
    (Spoils past uses model.id → inserted.1 = model ∧ inserted.2.entries = later.entries) ∧
      (¬Spoils past uses model.id → inserted.1 = (later.get? model.id).getD model ∧
        inserted.2.get? model.id = some inserted.1) := by
  have hcurrent := (empty.run past).generation_run_eq_iff uses model.id
  rw [voided_iff] at hcurrent
  exact ⟨fun h => insert_of_past (fun hsame => hcurrent.mp hsame h),
    fun h => insert_of_current (hcurrent.mpr h)⟩

-- When all models are given up, the generation of one that the cache has never heard of stays as it
-- is, so that what was read of it before is kept.
example : (empty.clear.insert (.bare "m") (empty.generation "m")).2.get? "m" = some (.bare "m") :=
  rfl

end ModelCache

end DocStore
