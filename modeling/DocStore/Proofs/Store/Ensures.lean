import DocStore.Proofs.Storage.Listing
import DocStore.Store.Attempt

namespace DocStore

-- What comes of looking at a view in vain.
def View.Fails (view : View) (e : Error) : Prop :=
  (∃ key, view.get key = .error e) ∨ ∃ range, .error e ∈ view.entries range

-- As far as a view tells anything, it tells what is in a map. Only a context that is over keeps it
-- from that.
structure View.Shows (view : View) (map : SortedMap Bytes Bytes) : Prop where
  get : ∀ key value, view.get key = .ok value → value = map.get? key
  entries : ∀ range, view.entries range = (range.select map).map .ok ∨
    ∃ e, .error e ∈ view.entries range
  pairs : ∀ range pair, .ok pair ∈ view.entries range → pair ∈ range.select map
  fails : ∀ e, view.Fails e → e.isCancelled = true

theorem Signal.isCancelled_of_check {signal : Signal} {e : Error} (h : signal.check = .error e) :
    e.isCancelled = true := by
  cases signal <;> cases h <;> rfl

-- What a handle sees it shows.
theorem Kv.Sees.shows {kv : Kv} {h : Handle} {below : SortedMap Bytes Bytes}
    {writes : SortedMap Bytes (Option Bytes)} (hs : kv.Sees h below writes) (signal : Signal) :
    (kv.view h signal).Shows (below.setAll writes.toList) where
  get key value hget := by
    simp only [Kv.view, hs.get] at hget
    cases hcheck : signal.check with
    | error e => simp [hcheck, Except.map] at hget
    | ok _ => simpa [hcheck, Except.map] using hget.symm
  entries range := (hs.entries signal range).imp_right (fun ⟨e, _, hm⟩ => ⟨e, hm⟩)
  pairs range pair hm := (hs.mem_entries signal range).1 pair hm
  fails e := by
    rintro (⟨key, hget⟩ | ⟨range, hm⟩)
    · simp only [Kv.view, hs.get] at hget
      cases hcheck : signal.check with
      | error e' =>
          simp only [hcheck, Except.map, Except.error.injEq] at hget
          exact hget ▸ Signal.isCancelled_of_check hcheck
      | ok _ => simp [hcheck, Except.map] at hget
    · exact Signal.isCancelled_of_check ((hs.mem_entries signal range).2 e hm)

namespace Store

theorem stored?_ofMap (map : SortedMap Bytes Bytes) (model id : String) :
    stored? model id (View.ofMap map) =
      match map.get? (Key.document model id) with
      | some record => (Record.decode record).map some
      | none => .ok none := by
  simp only [stored?, View.ofMap, bind, Except.bind]
  cases map.get? (Key.document model id) with
  | none => rfl
  | some record => cases Record.decode record <;> rfl

end Store

theorem View.Shows.stored? {view : View} {map : SortedMap Bytes Bytes} (h : view.Shows map)
    {model id : String} {old : Option Document} (hold : Store.stored? model id view = .ok old) :
    Store.stored? model id (View.ofMap map) = .ok old := by
  simp only [Store.stored?, bind, Except.bind] at hold ⊢
  cases hget : view.get (Key.document model id) with
  | error e => simp [hget] at hold
  | ok record =>
      rw [h.get _ _ hget] at hget
      rw [hget] at hold
      exact hold

namespace Attempt

variable {α β : Type} {base : SortedMap Bytes Bytes} {writes : SortedMap Bytes (Option Bytes)}
  {verdict : Option (Option Document)} {fault : Error → Prop}

-- What an attempt ensures if it succeeds: something about its writes, about what its reactors said
-- last, and about its result; and what it fails with if it does not. It sees its own writes over a
-- map. The reactors may say anything, and it may be any time.
def Ensures (base : SortedMap Bytes Bytes)
    (post : SortedMap Bytes (Option Bytes) → Option (Option Document) → α → Prop)
    (fault : Error → Prop) :
    Attempt α → SortedMap Bytes (Option Bytes) → Option (Option Document) → Prop
  | done (.ok a), writes, verdict => post writes verdict a
  | done (.error e), _, _ => fault e
  | reading _ next, writes, verdict =>
    ∀ view : View, view.Shows (base.setAll writes.toList) →
      (next view).Ensures base post fault writes verdict
  | writing batch next, writes, verdict =>
    next.Ensures base post fault (writes.insertAll batch) verdict
  | validating _ reactors _ new next, writes, _ =>
    ∀ answer, (reactors = [] → answer = new) →
      (next answer).Ensures base post fault writes (some answer)
  | timing next, writes, verdict => ∀ now, (next now).Ensures base post fault writes verdict

theorem ensures_bind {f : α → Attempt β}
    {post : SortedMap Bytes (Option Bytes) → Option (Option Document) → β → Prop} (a : Attempt α)
    (writes : SortedMap Bytes (Option Bytes)) (verdict : Option (Option Document)) :
    (a >>= f).Ensures base post fault writes verdict ↔
      a.Ensures base (fun writes verdict x => (f x).Ensures base post fault writes verdict) fault
        writes verdict := by
  induction a generalizing writes verdict with
  | done result => cases result <;> rfl
  | reading ctx next ih =>
      exact forall_congr' (fun view => forall_congr' (fun _ => ih view writes verdict))
  | writing batch next ih => exact ih (writes.insertAll batch) verdict
  | validating ctx reactors old new next ih =>
      exact forall_congr' (fun answer => forall_congr' (fun _ => ih answer writes (some answer)))
  | timing next ih => exact forall_congr' (fun now => ih now writes verdict)

theorem Ensures.imp
    {post weaker : SortedMap Bytes (Option Bytes) → Option (Option Document) → α → Prop}
    {weakerFault : Error → Prop} {a : Attempt α} (h : a.Ensures base post fault writes verdict)
    (himp : ∀ writes verdict x, post writes verdict x → weaker writes verdict x)
    (hfault : ∀ e, fault e → weakerFault e) : a.Ensures base weaker weakerFault writes verdict := by
  induction a generalizing writes verdict with
  | done result =>
      cases result with
      | ok x => exact himp _ _ _ h
      | error e => exact hfault e h
  | reading ctx next ih => exact fun view hview => ih view (h view hview)
  | writing batch next ih => exact ih h
  | validating ctx reactors old new next ih =>
      exact fun answer hanswer => ih answer (h answer hanswer)
  | timing next ih => exact fun now => ih now (h now)

section Steps

variable {post : SortedMap Bytes (Option Bytes) → Option (Option Document) → α → Prop}

theorem ensures_pure (a : α) :
    (pure a : Attempt α).Ensures base post fault writes verdict ↔ post writes verdict a := Iff.rfl

theorem ensures_done (result : Except Error α) :
    (done result).Ensures base post fault writes verdict ↔
      (∀ a, result = .ok a → post writes verdict a) ∧ ∀ e, result = .error e → fault e := by
  cases result <;> simp [Ensures]

theorem ensures_lift (result : Except Error α) :
    (liftM result : Attempt α).Ensures base post fault writes verdict ↔
      (∀ a, result = .ok a → post writes verdict a) ∧ ∀ e, result = .error e → fault e :=
  ensures_done result

theorem ensures_read (ctx : Context) (f : View → Except Error α) :
    (read ctx f).Ensures base post fault writes verdict ↔
      ∀ view : View, view.Shows (base.setAll writes.toList) →
        (∀ a, f view = .ok a → post writes verdict a) ∧ ∀ e, f view = .error e → fault e :=
  forall_congr' (fun view => forall_congr' (fun _ => ensures_done (f view)))

theorem ensures_write (batch : List Write)
    {post : SortedMap Bytes (Option Bytes) → Option (Option Document) → Unit → Prop} :
    (write batch).Ensures base post fault writes verdict ↔
      post (writes.insertAll batch) verdict () := Iff.rfl

theorem ensures_validate (ctx : Context) (reactors : List String) (old new : Option Document)
    {post : SortedMap Bytes (Option Bytes) → Option (Option Document) → Option Document → Prop} :
    (validate ctx reactors old new).Ensures base post fault writes verdict ↔
      ∀ answer, (reactors = [] → answer = new) → post writes (some answer) answer := Iff.rfl

theorem ensures_calendar
    {post : SortedMap Bytes (Option Bytes) → Option (Option Document) → Timestamp → Prop} :
    calendar.Ensures base post fault writes verdict ↔ ∀ now, post writes verdict now := Iff.rfl

end Steps

end Attempt

end DocStore
