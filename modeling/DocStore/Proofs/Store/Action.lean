import DocStore.Proofs.Store.Sequence

-- What the operations of a store leave alone.
namespace DocStore

namespace Action

variable {σ α β : Type}

-- An operation that succeeds.
def Smooth (a : Action σ α) : Prop := ∀ w, ∃ x, (a w).1 = .ok x

theorem smooth_pure (x : α) : Smooth (pure x : Action σ α) := fun _ => ⟨x, rfl⟩

theorem smooth_modify (f : World σ → World σ) : Smooth (modify f : Action σ Unit) :=
  fun _ => ⟨(), rfl⟩

theorem smooth_onRegistry (change : Registry → σ → α × Registry × σ) :
    Smooth (onRegistry change) := fun w => ⟨(change w.registry w.site.host).1, rfl⟩

theorem Smooth.bind {m : Action σ α} {f : α → Action σ β} (hm : m.Smooth)
    (hf : ∀ x, (f x).Smooth) : (m >>= f).Smooth := by
  intro w
  obtain ⟨x, hx⟩ := hm w
  rw [bind_eq]
  generalize m w = outcome at hx
  obtain ⟨result, w'⟩ := outcome
  cases hx
  exact hf x w'

-- An operation that succeeds with one answer, whatever the world is.
def Returns (a : Action σ α) (x : α) : Prop := ∀ w, (a w).1 = .ok x

theorem returns_pure (x : α) : Returns (pure x : Action σ α) x := fun _ => rfl

theorem Smooth.returns {m : Action σ α} {f : α → Action σ β} {y : β} (hm : m.Smooth)
    (hf : ∀ x, (f x).Returns y) : (m >>= f).Returns y := by
  intro w
  obtain ⟨x, hx⟩ := hm w
  rw [bind_eq]
  generalize m w = outcome at hx
  obtain ⟨result, w'⟩ := outcome
  cases hx
  exact hf x w'

theorem Returns.eq_of_ok {a : Action σ α} {x y : α} (h : a.Returns x) {w w' : World σ}
    (hdone : a w = (.ok y, w')) : y = x := by
  have hx := h w
  rw [hdone] at hx
  exact Except.ok.inj hx

theorem Returns.ne_error {a : Action σ α} {x : α} (h : a.Returns x) {w w' : World σ} {e : Error} :
    a w ≠ (.error e, w') := by
  intro hfailed
  have hx := h w
  rw [hfailed] at hx
  cases hx

-- An operation that succeeds and has nothing to do with the storage.
def Quiet (a : Action σ α) : Prop :=
  ∀ w, (∃ x, (a w).1 = .ok x) ∧ (a w).2.site.kv = w.site.kv

theorem quiet_pure (x : α) : Quiet (pure x : Action σ α) := fun _ => ⟨⟨x, rfl⟩, rfl⟩

theorem quiet_get : Quiet (get : Action σ (World σ)) := fun w => ⟨⟨w, rfl⟩, rfl⟩

theorem quiet_modify {f : World σ → World σ} (h : ∀ w, (f w).site.kv = w.site.kv) :
    Quiet (modify f : Action σ Unit) := fun w => ⟨⟨(), rfl⟩, h w⟩

theorem quiet_onRegistry (change : Registry → σ → α × Registry × σ) : Quiet (onRegistry change) :=
  fun w => ⟨⟨(change w.registry w.site.host).1, rfl⟩, rfl⟩

-- What follows it goes on with the same storage.
theorem Quiet.bind_eq {m : Action σ α} (hm : m.Quiet) (f : α → Action σ β) (w : World σ) :
    ∃ x w', w'.site.kv = w.site.kv ∧ (m >>= f) w = f x w' := by
  obtain ⟨⟨x, hx⟩, hkv⟩ := hm w
  rw [Action.bind_eq]
  generalize m w = outcome at hx hkv
  obtain ⟨result, w'⟩ := outcome
  cases hx
  exact ⟨x, w', hkv, rfl⟩

theorem Quiet.bind {m : Action σ α} {f : α → Action σ β} (hm : m.Quiet) (hf : ∀ x, (f x).Quiet) :
    (m >>= f).Quiet := by
  intro w
  obtain ⟨x, w', hkv, heq⟩ := hm.bind_eq f w
  rw [heq]
  exact ⟨(hf x w').1, (hf x w').2.trans hkv⟩

-- An operation that is sure to answer, and has nothing to do with the storage.
def Answers (a : Action σ α) (x : α) : Prop :=
  ∀ w, (a w).1 = .ok x ∧ (a w).2.site.kv = w.site.kv

theorem answers_pure (x : α) : Answers (pure x : Action σ α) x := fun _ => ⟨rfl, rfl⟩

theorem Quiet.answers {m : Action σ α} {f : α → Action σ β} {y : β} (hm : m.Quiet)
    (hf : ∀ x, (f x).Answers y) : (m >>= f).Answers y := by
  intro w
  obtain ⟨x, w', hkv, heq⟩ := hm.bind_eq f w
  rw [heq]
  exact ⟨(hf x w').1, (hf x w').2.trans hkv⟩

-- An operation that adds nothing but changes of some kind to what a store has been through.
def Lasting (keeps : Entry → Prop) (a : Action σ α) : Prop :=
  ∀ w, (∃ log map, w.site.kv.Holds log map ∧ ∀ e ∈ log, keeps e) →
    ∃ log map, (a w).2.site.kv.Holds log map ∧ ∀ e ∈ log, keeps e

end Action

end DocStore
