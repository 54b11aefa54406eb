import DocStore.Proofs.Store.Phases

-- What keeps operations from success before anything is written is no conflict.
namespace DocStore

section Walks

variable {fetch : KeyRange → Nat → Except Error (List Pair)} {fault : Error → Prop}

theorem Scan.fault_of_pull (hfetch : ∀ range limit e, fetch range limit = .error e → fault e)
    {s : Scan} {e : Error} (h : (s.pull fetch).1 = some (.error e)) : fault e := by
  simp only [pull] at h
  split at h
  · split at h
    · next heq =>
      cases h
      exact hfetch _ _ _ heq
    · split at h <;> cases h
  · split at h <;> cases h

-- An item that was looked at already is no error of another kind.
def Overlay.Keeps (fault : Error → Prop) (o : Overlay) : Prop :=
  ∀ e, o.peeked = some (some (.error e)) → fault e

theorem Overlay.keeps_of_not_peeked {o : Overlay} (h : o.peeked = none) : o.Keeps fault := by
  intro e he
  cases h.symm.trans he

theorem Overlay.fault_of_peek (hfetch : ∀ range limit e, fetch range limit = .error e → fault e)
    {o : Overlay} (ho : o.Keeps fault) :
    (∀ e, (o.peek fetch).1 = some (.error e) → fault e) ∧ (o.peek fetch).2.Keeps fault := by
  simp only [peek]
  split
  · next item heq => exact ⟨fun e he => ho e (heq.trans (congrArg some he)), ho⟩
  · have hpull : ∀ e, (o.base.pull fetch).1 = some (.error e) → fault e :=
      fun e => Scan.fault_of_pull hfetch
    exact ⟨hpull, fun e he => hpull e (Option.some.inj he)⟩

theorem Overlay.fault_of_pullWith
    (hfetch : ∀ range limit e, fetch range limit = .error e → fault e) (writes : List Write)
    {o : Overlay} (ho : o.Keeps fault) :
    (∀ e, (o.pullWith fetch writes).1 = some (.error e) → fault e) ∧
      (o.pullWith fetch writes).2.Keeps fault := by
  induction writes generalizing o with
  | nil => exact ⟨(fault_of_peek hfetch ho).1, keeps_of_not_peeked rfl⟩
  | cons w rest ih =>
      obtain ⟨key, value⟩ := w
      obtain ⟨hitem, hkeeps⟩ := fault_of_peek hfetch ho
      simp only [pullWith]
      generalize o.peek fetch = peeked at hitem hkeeps
      obtain ⟨_ | e | pair, o'⟩ := peeked
      · cases value with
        | some v => exact ⟨fun _ he => (by cases he), hkeeps⟩
        | none => exact ih hkeeps
      · exact ⟨hitem, keeps_of_not_peeked rfl⟩
      · simp only
        split
        · exact ⟨fun _ he => (by cases he), keeps_of_not_peeked rfl⟩
        · have hnext : Overlay.Keeps fault
              (if pair.1 = key then { o' with peeked := none } else o') := by
            split
            · exact keeps_of_not_peeked rfl
            · exact hkeeps
          cases value with
          | some v => exact ⟨fun _ he => (by cases he), hnext⟩
          | none => exact ih hnext

-- What holds of every item that may be pulled holds of all that are collected.
theorem forall_mem_collect {ι α : Type} {pull : ι → Option α × ι} {inv : ι → Prop} {good : α → Prop}
    (hpull : ∀ it, inv it → (∀ a, (pull it).1 = some a → good a) ∧ inv (pull it).2) (fuel : Nat)
    {it : ι} (hit : inv it) : ∀ a ∈ collect pull fuel it, good a := by
  induction fuel generalizing it with
  | zero => simp [collect]
  | succ fuel ih =>
      obtain ⟨hgood, hinv⟩ := hpull it hit
      simp only [collect]
      generalize pull it = outcome at hgood hinv
      obtain ⟨_ | a, next⟩ := outcome
      · exact List.forall_mem_nil _
      · exact List.forall_mem_cons.mpr ⟨hgood a rfl, ih hinv⟩

end Walks

namespace Kv

theorem isConflict_of_usable {h : Handle} {e : Error} (he : usable h = .error e) :
    e.isConflict = false := by
  cases h with
  | multiRead version closed | singleRead closed =>
      cases closed <;> cases he
      rfl
  | multiWrite txn finished =>
      simp only [usable, Txn.ensureActive] at he
      split at he <;> cases he
      rfl
  | singleWrite writes isOpen =>
      cases isOpen <;> cases he
      rfl

def Iter.Keeps (fault : Error → Prop) : Iter → Prop
  | .failed failure => ∀ e, failure = some e → fault e
  | .walk overlay => overlay.Keeps fault

theorem fault_of_pull {signal : Signal} {fault : Error → Prop}
    (hsignal : ∀ e, signal.check = .error e → fault e) (kv : Kv) (h : Handle) {it : Iter}
    (hit : Iter.Keeps fault it) :
    (∀ item, (kv.pull h signal it).1 = some item → ∀ e, item = .error e → fault e) ∧
      Iter.Keeps fault (kv.pull h signal it).2 := by
  cases it with
  | failed failure =>
      refine ⟨fun item hitem e he => ?_, fun _ he => by cases he⟩
      obtain ⟨e', hfailure, hitem⟩ := Option.map_eq_some_iff.mp hitem
      cases hitem.trans he
      exact hit e hfailure
  | walk overlay =>
      let fetch (range : KeyRange) (limit : Nat) : Except Error (List Pair) := do
        signal.check
        return kv.scan h range limit
      have hfetch : ∀ range limit e, fetch range limit = .error e → fault e := by
        intro range limit e he
        rcases bind_eq_error_iff.mp he with hcheck | ⟨_, -, hdone⟩
        · exact hsignal e hcheck
        · cases hdone
      obtain ⟨hitem, hkeeps⟩ := Overlay.fault_of_pullWith hfetch overlay.writes hit
      exact ⟨fun item heq e he => hitem e (heq.trans (congrArg some he)), hkeeps⟩

-- Whatever is read, and through whatever handle, reading fails with no conflict.
theorem mild_view (kv : Kv) (h : Handle) (signal : Signal) : (kv.view h signal).Mild := by
  have hsignal : ∀ e, signal.check = .error e → e.isConflict = false :=
    fun e hcheck => Error.isConflict_of_isCancelled (Signal.isCancelled_of_check hcheck)
  rintro e (⟨key, hget⟩ | ⟨range, hm⟩)
  · rcases bind_eq_error_iff.mp hget with hcheck | ⟨_, -, hget⟩
    · exact hsignal e hcheck
    · rcases bind_eq_error_iff.mp hget with husable | ⟨_, -, hget⟩
      · exact isConflict_of_usable husable
      · split at hget <;> cases hget
  · have hiter : Iter.Keeps (fun e => e.isConflict = false) (iter h range) := by
      simp only [iter]
      split
      · next failure heq =>
        rintro e' he'
        cases he'
        exact isConflict_of_usable heq
      · exact Overlay.keeps_of_not_peeked rfl
    exact forall_mem_collect (fun it => fault_of_pull hsignal kv h) _ hiter _ hm e rfl

end Kv

namespace Action

variable {σ α β : Type}

-- An operation that fails with no conflict, whatever the world is like.
def Peaceful (a : Action σ α) : Prop := ∀ w e, (a w).1 = .error e → e.isConflict = false

theorem Quiet.smooth {a : Action σ α} (h : a.Quiet) : a.Smooth := fun w => (h w).1

theorem Smooth.peaceful {a : Action σ α} (h : a.Smooth) : a.Peaceful := by
  intro w e he
  obtain ⟨x, hx⟩ := h w
  cases hx.symm.trans he

theorem peaceful_lift {r : Except Error α} (h : ∀ e, r = .error e → e.isConflict = false) :
    Peaceful (liftM r : Action σ α) := fun _ => h

theorem peaceful_throw {e : Error} (h : e.isConflict = false) :
    Peaceful (throw e : Action σ α) := by
  rintro _ _ ⟨⟩
  exact h

theorem Peaceful.bind {m : Action σ α} {f : α → Action σ β} (hm : m.Peaceful)
    (hf : ∀ x, (f x).Peaceful) : (m >>= f).Peaceful := by
  intro w e he
  rw [bind_eq] at he
  have hfails := hm w
  generalize m w = outcome at he hfails
  obtain ⟨e' | x, w'⟩ := outcome
  · cases he
    exact hfails e rfl
  · exact hf x w' e he

theorem peaceful_check (ctx : Context) : Peaceful (check ctx : Action σ Unit) :=
  fun _ _ he => Error.isConflict_of_isCancelled (Signal.isCancelled_of_check he)

theorem peaceful_reading (ctx : Context) {f : View → Except Error α}
    (h : ∀ view : View, view.Mild → ∀ e, f view = .error e → e.isConflict = false) :
    Peaceful (reading ctx f : Action σ α) := fun _ => h _ (Kv.mild_view _ _ _)

-- What follows an operation that changes nothing, or comes of its failure.
theorem Peaceful.bind_cases {m : Action σ α} {f : α → Action σ β} (hm : m.Peaceful)
    (hkeeps : m.Keeps World.Preserves) {w : World σ} {log : List Entry}
    {map : SortedMap Bytes Bytes} (hw : w.site.kv.Holds log map)
    {ends : Except Error β × World σ → Prop}
    (hfail : ∀ e w', w'.site.kv.Holds log map → e.isConflict = false → ends (.error e, w'))
    (hgo : ∀ x w', (m w).1 = .ok x → w'.site.kv.Holds log map → ends (f x w')) :
    ends ((m >>= f) w) := by
  have hholds := hkeeps w log map hw
  have hfails := hm w
  rw [bind_eq]
  generalize m w = outcome at hholds hfails hgo
  obtain ⟨e | x, w'⟩ := outcome
  · exact hfail e w' hholds (hfails e rfl)
  · exact hgo x w' rfl hholds

end Action

namespace Store

variable {σ : Type} {store : Store σ}

theorem isConflict_of_ofDocument {doc : Document} {e : Error}
    (h : Model.ofDocument doc = .error e) : e.isConflict = false := by
  rcases bind_eq_error_iff.mp h with hname | ⟨_, -, hbody⟩
  · unfold Identifier.checkModelName at hname
    split at hname <;> cases hname
    rfl
  · cases hcompile : Model.compileBody doc.id doc.val with
    | error fault =>
        simp only [hcompile, Except.mapError, Except.error.injEq] at hbody
        exact hbody ▸ rfl
    | ok compiled => simp [hcompile, Except.mapError] at hbody

theorem isConflict_of_ensureRunning {r : Registry} {ids : List String} {e : Error}
    (h : r.ensureRunning ids = .error e) : e.isConflict = false := by
  unfold Registry.ensureRunning at h
  split at h <;> cases h
  rfl

theorem isConflict_of_checkPath {model id : String} {e : Error}
    (h : Identifier.checkPath model id = .error e) : e.isConflict = false := by
  have hcheck : ∀ label name, Identifier.check label name = .error e → e.isConflict = false := by
    intro label name h
    unfold Identifier.check at h
    split at h <;> cases h
    rfl
  rcases bind_eq_error_iff.mp h with hmodel | ⟨_, -, hid⟩
  · exact hcheck _ _ hmodel
  · exact hcheck _ _ hid

theorem peaceful_prepare (doc : Document) : (prepare store doc).Peaceful := by
  unfold prepare
  split
  · refine (Action.peaceful_lift fun _ => isConflict_of_ofDocument).bind (fun declared => ?_)
    refine Action.quiet_get.smooth.peaceful.bind (fun w => ?_)
    refine (Action.peaceful_lift fun _ => isConflict_of_ensureRunning).bind (fun _ => ?_)
    exact (Action.smooth_pure none).peaceful
  · split
    · refine (Action.smooth_onRegistry _).peaceful.bind (fun prepared => ?_)
      cases prepared with
      | ok inst => exact (Action.smooth_pure (some inst)).peaceful
      | error fault => exact Action.peaceful_throw rfl
    · exact (Action.smooth_pure none).peaceful

theorem peaceful_model (ctx : Context) (name : String) :
    (model ctx name : Action σ Model).Peaceful := by
  unfold model
  cases Model.builtIn? name with
  | some builtIn => exact (Action.smooth_pure builtIn).peaceful
  | none =>
      refine Action.quiet_get.smooth.peaceful.bind (fun w => ?_)
      cases w.models.get? name with
      | some cached => exact (Action.smooth_pure cached).peaceful
      | none =>
          refine Action.quiet_get.smooth.peaceful.bind (fun w => ?_)
          refine (Action.peaceful_reading ctx fun _ hview _ => hview.isConflict_of_stored?).bind
            (fun stored => ?_)
          cases stored with
          | none => exact Action.peaceful_throw rfl
          | some doc =>
              refine (Action.peaceful_lift fun _ => isConflict_of_ofDocument).bind
                (fun compiled => ?_)
              refine Action.quiet_get.smooth.peaceful.bind (fun w' => ?_)
              rcases w'.models.insert compiled (w.models.generation name) with ⟨kept, models⟩
              exact (Action.smooth_modify _).peaceful.bind
                (fun _ => (Action.smooth_pure kept).peaceful)

theorem peaceful_accept (ctx : Context) (doc : Document) : (accept store ctx doc).Peaceful := by
  refine (Action.peaceful_check ctx).bind (fun _ => ?_)
  refine (Action.peaceful_lift fun _ => isConflict_of_checkPath).bind (fun _ => ?_)
  refine (peaceful_prepare doc).bind (fun prepared => ?_)
  refine (peaceful_model ctx doc.model).bind (fun model => ?_)
  have hdone := (Action.smooth_pure (prepared, model) : (pure _ : Action σ _).Smooth).peaceful
  split
  · exact (Action.peaceful_lift fun _ => isConflict_of_checkBody).bind (fun _ => hdone)
  · exact hdone

theorem peaceful_locate (ctx : Context) (model id : String) :
    (locate ctx model id : Action σ Model).Peaceful :=
  (Action.peaceful_check ctx).bind (fun _ =>
    (Action.peaceful_lift fun _ => isConflict_of_checkPath).bind (fun _ =>
      peaceful_model ctx model))

theorem peaceful_get (ctx : Context) (model id : String) :
    (get ctx model id : Action σ Document).Peaceful := by
  refine (Action.peaceful_check ctx).bind (fun _ => ?_)
  refine (Action.peaceful_lift fun _ => isConflict_of_checkPath).bind (fun _ => ?_)
  refine (Action.peaceful_reading ctx fun _ hview _ => hview.isConflict_of_stored?).bind
    (fun found => ?_)
  cases found with
  | none => exact Action.peaceful_throw rfl
  | some doc =>
      simp only
      split
      · exact (Action.quiet_get.smooth.bind fun _ => Action.smooth_pure _).peaceful
      · exact (Action.smooth_pure doc).peaceful

end Store

end DocStore
