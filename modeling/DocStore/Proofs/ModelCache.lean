import DocStore.Model
import DocStore.Proofs.SortedMap

-- What the operations of the cache of models do to its entries and to their generations.
namespace DocStore

theorem Model.id_of_compileBody {id : String} {val : Value} {model : Model}
    (h : compileBody id val = .ok model) : model.id = id := by
  unfold compileBody at h
  split at h
  · exact congrArg Model.id (Except.ok.inj h).symm
  · simp only [bind, Except.bind, pure, Except.pure] at h
    repeat' split at h
    all_goals first
      | exact congrArg Model.id (Except.ok.inj h).symm
      | cases h
  · cases h

-- A model is named by the document that defines it.
theorem Model.id_of_ofDocument {doc : Document} {model : Model}
    (h : Model.ofDocument doc = .ok model) : model.id = doc.id := by
  simp only [ofDocument, bind, Except.bind] at h
  split at h
  · cases h
  · cases hbody : compileBody doc.id doc.val with
    | error fault => simp [hbody, Except.mapError] at h
    | ok compiled =>
        obtain rfl : compiled = model := by simpa [hbody, Except.mapError] using h
        exact id_of_compileBody hbody

namespace ModelCache

variable {cache : ModelCache} {model : Model} {generation : Nat} {name : String}

theorem generation_insert (cache : ModelCache) (model : Model) (generation : Nat) (name : String) :
    (cache.insert model generation).2.generation name = cache.generation name := by
  have hnoted : ((cache.generations.insert model.id (cache.generation model.id)).get? name).getD 0 =
      cache.generation name := by
    rw [SortedMap.get?_insert]
    split
    · next heq => rw [heq, Option.getD_some]
    · rfl
  by_cases hpast : cache.generation model.id ≠ generation
  · simp only [insert, if_pos hpast]
    exact hnoted
  · simp only [insert, if_neg hpast]
    split <;> exact hnoted

-- A model enters the cache under its own name, if its generation is not past.
theorem get?_insert {kept : Model}
    (h : (cache.insert model generation).2.get? name = some kept) :
    cache.get? name = some kept ∨
      kept = model ∧ model.id = name ∧ cache.generation name = generation := by
  by_cases hpast : cache.generation model.id ≠ generation
  · simp only [insert, if_pos hpast] at h
    exact .inl h
  · simp only [insert, if_neg hpast] at h
    split at h
    · exact .inl h
    · simp only [get?, SortedMap.get?_insert] at h
      split at h
      · next heq => exact .inr ⟨(Option.some.inj h).symm, heq, heq ▸ not_not.mp hpast⟩
      · exact .inl h

theorem generation_invalidate (cache : ModelCache) (id name : String) :
    (cache.invalidate id).generation name =
      if id = name then cache.generation name + 1 else cache.generation name := by
  simp only [generation, invalidate, SortedMap.get?_insert]
  split
  · next heq => rw [heq, Option.getD_some]
  · rfl

theorem get?_invalidate (cache : ModelCache) (id name : String) :
    (cache.invalidate id).get? name = if id = name then none else cache.get? name := by
  simp only [get?, invalidate, SortedMap.get?_erase]

end ModelCache

end DocStore
