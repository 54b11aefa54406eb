import DocStore.Proofs.Store.IndexConsistency

-- Changes of one document follow one another, however their writers were interleaved.
namespace DocStore

namespace Job

-- The patches that a job consists of, if it is one of patches.
def mutations : Job → Option Fields
  | put _ _ _ doc => doc.mutations
  | delete _ _ _ _ => none

def reactors : Job → List String
  | put _ _ model _ => model.reactors
  | delete _ target _ _ => target.reactors

end Job

namespace Entry

-- The version that a change starts from.
def startVersion (e : Entry) : Nat := (e.change.old.map Document.currentVersion).getD 0

-- The body that the reactors made of a body.
def reviewed (e : Entry) (val : Value) : Value :=
  match e.answer with
  | some (some replaced) => replaced.val
  | _ => val

def patched (e : Entry) (val : Value) : Except MutationFault Value :=
  (Mutation.apply val (e.job.mutations.getD [])).map e.reviewed

-- A put counts the version up by one, and keeps the time of the creation.
theorem version_of_makes {e : Entry} (h : e.job.Makes e.answer e.change) {d : Document}
    (hd : e.change.new = some d) : d.currentVersion = e.startVersion + 1 ∧
      ∃ now, d.history.map (·.created) =
        some (((e.change.old.bind (·.history)).map (·.created)).getD now) := by
  obtain ⟨job, answer, change⟩ := e
  cases job with
  | put encoding ctx model doc =>
      obtain ⟨-, val, now, verdict, -, -, -, hnew⟩ := h
      rw [hd, Option.some.injEq] at hnew
      subst hnew
      cases verdict <;> exact ⟨rfl, now, rfl⟩
  | delete ctx target model id =>
      rw [h.2] at hd
      cases hd

-- A job of patches applies them to the body that it finds.
theorem patched_of_makes {e : Entry} (h : e.job.Makes e.answer e.change) {patches : Fields}
    (hpatches : e.job.mutations = some patches) :
    ∃ d val, e.change.new = some d ∧
      Mutation.apply ((e.change.old.map (·.val)).getD .null) patches = .ok val ∧
      d.val = e.reviewed val ∧ (e.job.reactors = [] → d.val = val) := by
  obtain ⟨job, answer, change⟩ := e
  cases job with
  | put encoding ctx model doc =>
      obtain ⟨-, val, now, verdict, hval, hnone, hanswer, hnew⟩ := h
      have hdoc : doc.mutations = some patches := hpatches
      have happly : Mutation.apply ((change.old.map (·.val)).getD .null) patches = .ok val := by
        simp only [Store.newBody, hdoc, bind, Except.bind] at hval
        cases hm : Mutation.apply ((change.old.map (·.val)).getD .null) patches with
        | error fault => simp [hm, Except.mapError] at hval
        | ok val' =>
            simp only [hm, Except.mapError] at hval
            split at hval
            · cases hval
            · rw [Except.ok.inj hval]
      refine ⟨_, val, hnew, happly, ?_, fun hnil => ?_⟩
      · simp only at hanswer
        rw [reviewed, hanswer]
        cases verdict <;> rfl
      · rw [hnone hnil]
        rfl
  | delete ctx target model id => cases hpatches

end Entry

-- Each change starts from what the one before it left.
def Follows (old : Option Document) : List Entry → Prop
  | [] => True
  | e :: rest => e.change.old = old ∧ Follows e.change.new rest

namespace Follows

variable {old : Option Document} {front back life : List Entry}

-- What a series of changes leaves.
def left (old : Option Document) (entries : List Entry) : Option Document :=
  entries.foldl (fun _ e => e.change.new) old

theorem append : Follows old (front ++ back) ↔
    Follows old front ∧ Follows (left old front) back := by
  induction front generalizing old with
  | nil => simp [Follows, left]
  | cons e rest ih =>
      simp only [List.cons_append, Follows, ih, and_assoc]
      rfl

theorem left_eq_getLast? (entries : List Entry) :
    left none entries = entries.getLast?.bind (·.change.new) := by
  cases entries using List.reverseRecOn with
  | nil => rfl
  | append_singleton front last => simp [left]

-- Versions are counted up from where a series starts, until the document goes.
theorem version (h : Follows old life)
    (hmakes : ∀ e ∈ life, e.job.Makes e.answer e.change)
    (hkept : ∀ e ∈ life.dropLast, e.change.new.isSome) {i : Nat} {e : Entry}
    (hi : life[i]? = some e) :
    e.startVersion = (old.map Document.currentVersion).getD 0 + i := by
  induction life generalizing old i with
  | nil => simp at hi
  | cons first rest ih =>
      obtain ⟨hfirst, hrest⟩ := h
      cases i with
      | zero =>
          simp only [List.getElem?_cons_zero, Option.some.injEq] at hi
          rw [← hi, Entry.startVersion, hfirst, Nat.add_zero]
      | succ i =>
          have hi' : rest[i]? = some e := by simpa using hi
          have hne : rest ≠ [] := by
            rintro rfl
            simp at hi'
          rw [List.dropLast_cons_of_ne_nil hne] at hkept
          obtain ⟨d, hd⟩ := Option.isSome_iff_exists.mp (hkept first (by simp))
          have hversion := (Entry.version_of_makes (hmakes first (by simp)) hd).1
          rw [ih hrest (fun e he => hmakes e (List.mem_cons_of_mem _ he))
            (fun e he => hkept e (List.mem_cons_of_mem _ he)) hi', hd, Option.map_some,
            Option.getD_some, hversion, Entry.startVersion, hfirst]
          omega

-- The time of the creation is handed on.
theorem created (h : Follows old life) {time : Timestamp}
    (hold : (old.bind (·.history)).map (·.created) = some time)
    (hmakes : ∀ e ∈ life, e.job.Makes e.answer e.change)
    (hkept : ∀ e ∈ life.dropLast, e.change.new.isSome) {e : Entry} (he : e ∈ life) {d : Document}
    (hd : e.change.new = some d) : d.history.map (·.created) = some time := by
  induction life generalizing old with
  | nil => simp at he
  | cons first rest ih =>
      obtain ⟨hfirst, hrest⟩ := h
      have hfirst' : ∀ d, first.change.new = some d → d.history.map (·.created) = some time := by
        intro d hd
        obtain ⟨-, now, hcreated⟩ := Entry.version_of_makes (hmakes first (by simp)) hd
        rw [hcreated, hfirst, hold, Option.getD_some]
      rcases List.mem_cons.mp he with rfl | he
      · exact hfirst' d hd
      · have hne : rest ≠ [] := List.ne_nil_of_mem he
        rw [List.dropLast_cons_of_ne_nil hne] at hkept
        obtain ⟨d', hd'⟩ := Option.isSome_iff_exists.mp (hkept first (by simp))
        refine ih hrest ?_ (fun e he => hmakes e (List.mem_cons_of_mem _ he))
          (fun e he => hkept e (List.mem_cons_of_mem _ he)) he
        rw [hd', Option.bind_some]
        exact hfirst' d' hd'

-- If every change takes the body a step further, the last one leaves what all steps come to.
theorem fold (h : Follows old life) {step : Value → Entry → Except MutationFault Value}
    (hstep : ∀ e ∈ life, ∃ d, e.change.new = some d ∧
      step ((e.change.old.map (·.val)).getD .null) e = .ok d.val) :
    life.foldlM step ((old.map (·.val)).getD .null) =
      .ok (((left old life).map (·.val)).getD .null) := by
  induction life generalizing old with
  | nil => rfl
  | cons first rest ih =>
      obtain ⟨hfirst, hrest⟩ := h
      obtain ⟨d, hd, hval⟩ := hstep first (by simp)
      have htail := ih hrest (fun e he => hstep e (List.mem_cons_of_mem _ he))
      rw [hd, Option.map_some, Option.getD_some] at htail
      rw [List.foldlM_cons, ← hfirst, hval]
      simp only [bind, Except.bind, htail, left, List.foldl_cons, hd]

end Follows

-- The changes of a document from its creation on, as they have to be until it is deleted.
structure Unbroken (life : List Entry) : Prop where
  -- no version is left out, and no two changes start from the same one
  starts : ∀ (i : Nat) e, life[i]? = some e → e.startVersion = i
  leaves : ∃ created, ∀ (i : Nat) e d, life[i]? = some e → e.change.new = some d →
    d.currentVersion = i + 1 ∧ d.history.map (·.created) = some created
  -- patches are applied one after the other, and the reactors have their say on each
  patches : (∀ e ∈ life, e.job.mutations.isSome) →
    ∀ d, life.getLast?.bind (·.change.new) = some d →
      life.foldlM (fun val e => e.patched val) .null = .ok d.val ∧
      ((∀ e ∈ life, e.job.reactors = []) →
        life.foldlM (fun val e => Mutation.apply val (e.job.mutations.getD [])) .null = .ok d.val)

theorem Follows.unbroken {life : List Entry} (h : Follows none life)
    (hmakes : ∀ e ∈ life, e.job.Makes e.answer e.change)
    (hkept : ∀ e ∈ life.dropLast, e.change.new.isSome) : Unbroken life where
  starts i e hi := by simpa using h.version hmakes hkept hi
  leaves := by
    have hversion : ∀ (i : Nat) e d, life[i]? = some e → e.change.new = some d →
        d.currentVersion = i + 1 := by
      intro i e d hi hd
      have hstart : e.startVersion = i := by simpa using h.version hmakes hkept hi
      rw [(Entry.version_of_makes (hmakes e (List.mem_of_getElem? hi)) hd).1, hstart]
    cases life with
    | nil => exact ⟨default, by simp⟩
    | cons first rest =>
        obtain ⟨hfirst, hrest⟩ := h
        cases hnew : first.change.new with
        | none =>
            -- a deletion ends the series
            have hnil : rest = [] := by
              by_contra hne
              rw [List.dropLast_cons_of_ne_nil hne] at hkept
              simpa [hnew] using hkept first (by simp)
            subst hnil
            refine ⟨default, fun i e d hi hd => ?_⟩
            rw [List.mem_singleton.mp (List.mem_of_getElem? hi), hnew] at hd
            cases hd
        | some d =>
            obtain ⟨-, now, hcreated⟩ := Entry.version_of_makes (hmakes first (by simp)) hnew
            rw [hfirst] at hcreated
            refine ⟨now, fun i e d' hi hd' => ⟨hversion i e d' hi hd', ?_⟩⟩
            rcases List.mem_cons.mp (List.mem_of_getElem? hi) with rfl | he
            · rw [hnew, Option.some.injEq] at hd'
              rw [← hd', hcreated]
              rfl
            · have hne : rest ≠ [] := List.ne_nil_of_mem he
              rw [List.dropLast_cons_of_ne_nil hne] at hkept
              rw [hnew] at hrest
              exact hrest.created hcreated (fun e he => hmakes e (List.mem_cons_of_mem _ he))
                (fun e he => hkept e (List.mem_cons_of_mem _ he)) he hd'
  patches := by
    intro hpatches d hd
    rw [← Follows.left_eq_getLast?] at hd
    have hval : ((Follows.left none life).map (·.val)).getD .null = d.val := by rw [hd]; rfl
    rw [← hval]
    have hpatched : ∀ e ∈ life, ∃ d val, e.change.new = some d ∧
        Mutation.apply ((e.change.old.map (·.val)).getD .null) (e.job.mutations.getD []) = .ok val ∧
        d.val = e.reviewed val ∧ (e.job.reactors = [] → d.val = val) := by
      intro e he
      obtain ⟨fields, hfields⟩ := Option.isSome_iff_exists.mp (hpatches e he)
      rw [hfields]
      exact Entry.patched_of_makes (hmakes e he) hfields
    constructor
    · refine h.fold (fun e he => ?_)
      obtain ⟨d, val, hnew, happly, hreviewed, -⟩ := hpatched e he
      exact ⟨d, hnew, by rw [Entry.patched, happly, hreviewed]; rfl⟩
    · intro hnone
      refine h.fold (fun e he => ?_)
      obtain ⟨d, val, hnew, happly, -, hsame⟩ := hpatched e he
      exact ⟨d, hnew, by rw [happly, hsame (hnone e he)]⟩

-- The committed changes of one document.
def History.ofLog (log : List Entry) (model id : String) : List Entry :=
  log.filter (fun e => e.job.model == model && e.job.id == id)

-- The changes of a document follow one another, and leave what is stored.
theorem Recorded.follows {log : List Entry} {map : SortedMap Bytes Bytes} (h : Recorded log map)
    (hread : ∀ e ∈ log, e.Readable) (model id : String) :
    Follows none (History.ofLog log model id) ∧
      Store.stored? model id (View.ofMap map) =
        .ok (Follows.left none (History.ofLog log model id)) := by
  induction h with
  | start => exact ⟨trivial, by rw [Store.stored?_ofMap, SortedMap.get?_empty]; rfl⟩
  | @enter log before after e _ ht ih =>
      obtain ⟨hfollows, hstored⟩ := ih (fun e' he => hread e' (List.mem_append_left _ he))
      by_cases heq : model = e.job.model ∧ id = e.job.id
      · obtain ⟨rfl, rfl⟩ := heq
        have hhistory : History.ofLog (log ++ [e]) e.job.model e.job.id =
            History.ofLog log e.job.model e.job.id ++ [e] := by simp [History.ofLog]
        rw [hhistory, Follows.append]
        have hold := ht.reads
        rw [hstored, Except.ok.injEq] at hold
        refine ⟨⟨hfollows, hold.symm, trivial⟩, ?_⟩
        rw [ht.stored?_own (hread e (by simp))]
        simp [Follows.left]
      · have hhistory : History.ofLog (log ++ [e]) model id = History.ofLog log model id := by
          have hother : (e.job.model == model && e.job.id == id) = false := by
            rw [Bool.and_eq_false_iff, beq_eq_false_iff_ne, beq_eq_false_iff_ne]
            by_contra hne
            rw [not_or, not_not, not_not] at hne
            exact heq ⟨hne.1.symm, hne.2.symm⟩
          simp [History.ofLog, hother]
        rw [hhistory, ht.stored?_other heq]
        exact ⟨hfollows, hstored⟩

theorem Recorded.makes {log : List Entry} {map : SortedMap Bytes Bytes} (h : Recorded log map) :
    ∀ e ∈ log, e.job.Makes e.answer e.change := by
  induction h with
  | start => simp
  | @enter log before after e _ ht ih =>
      intro e' he
      rcases List.mem_append.mp he with he | he
      · exact ih e' he
      · obtain ⟨base, writes, hprepares, -⟩ := ht
        rw [List.mem_singleton.mp he]
        exact hprepares.makes

namespace Office

def history (x : Office) (model id : String) : List Entry := History.ofLog x.log model id

variable {kind : BackendKind} {x : Office}

theorem Sound.turns_of_step (h : x.Sound kind) {event : Event} {e : Entry}
    (hlog : (x.step event).log = x.log ++ [e]) : e.Turns x.current (x.step event).current := by
  have hsame (hnone : (x.step event).log = x.log) : False := by
    simpa [hnone] using congrArg List.length hlog
  cases event with
  | take job signal stop => exact (hsame (log_take x job signal stop)).elim
  | work n signal verdict now => exact (hsame (log_work x n signal verdict now)).elim
  | leave n => exact (hsame rfl).elim
  | look call =>
      refine (hsame ?_).elim
      show (if call.isLook then x.call call else x).log = x.log
      split <;> rfl
  | commit n signal =>
      simp only [Office.step, Office.commit] at hlog hsame ⊢
      split at hlog
      · next job change answer hw =>
        simp only [hw] at hsame ⊢
        split at hlog
        · next hok =>
          obtain ⟨commit, hcommit, hjoins⟩ := h.joins n signal ⟨job, answer, change⟩ hw hok
          obtain rfl : ⟨job, answer, change⟩ = e := by simpa using hlog
          simp only [Office.current, Office.call, hcommit]
          exact hjoins.turns
        · simpa [Office.call] using congrArg List.length hlog
      · simpa using congrArg List.length hlog

-- However writers are interleaved, what a change was computed from is what is committed when the
-- change is. So the changes of a document start from what the ones before them left. It is provided
-- that the records which were written can be read.
theorem no_lost_update (kind : BackendKind) (events : List Event)
    (hread : ∀ e ∈ (run kind events).log, e.Readable) :
    (∀ event e, ((run kind events).step event).log = (run kind events).log ++ [e] →
      (run kind events).stored? e.job.model e.job.id = .ok e.change.old) ∧
    ∀ model id before life after, (run kind events).history model id = before ++ life ++ after →
      (∀ e ∈ life.head?, e.change.old = before.getLast?.bind (·.change.new)) ∧
      ((∀ e ∈ life.head?, e.change.old = none) → (∀ e ∈ life.dropLast, e.change.new.isSome) →
        Unbroken life) := by
  have hsound := sound_run kind events
  constructor
  · intro event e hlog
    rw [hsound.stored?_eq]
    exact (hsound.turns_of_step hlog).reads
  · intro model id before life after hsplit
    have hfollows := (hsound.recorded.follows hread model id).1
    rw [show History.ofLog (run kind events).log model id = before ++ life ++ after from hsplit,
      Follows.append, Follows.append, Follows.left_eq_getLast?] at hfollows
    obtain ⟨⟨-, hlife⟩, -⟩ := hfollows
    have hmakes : ∀ e ∈ life, e.job.Makes e.answer e.change := by
      intro e he
      have hm : e ∈ (run kind events).history model id := by
        rw [hsplit]
        simp [he]
      exact hsound.recorded.makes e (List.mem_filter.mp hm).1
    have hhead : ∀ e ∈ life.head?, e.change.old = before.getLast?.bind (·.change.new) := by
      intro e he
      cases life with
      | nil => simp at he
      | cons first rest =>
          obtain rfl : first = e := by simpa using he
          exact hlife.1
    refine ⟨hhead, fun hcreation hkept => ?_⟩
    cases life with
    | nil => exact Follows.unbroken trivial hmakes hkept
    | cons first rest =>
        have hnone := hhead first rfl
        rw [hcreation first rfl] at hnone
        rw [← hnone] at hlife
        exact hlife.unbroken hmakes hkept

-- Of three writers one is too late, and what the others have counted is not lost.
theorem no_lost_update_of_race : ((run .mvcc race).history "m" "a").length = 2 ∧
    Unbroken ((run .mvcc race).history "m" "a") := by
  have hhistory : (run .mvcc race).history "m" "a" = (run .mvcc race).log := by
    rw [history, log_race]
    cbv
  obtain ⟨-, hlife⟩ := no_lost_update .mvcc race readable_race
  obtain ⟨-, hunbroken⟩ := hlife "m" "a" [] ((run .mvcc race).history "m" "a") [] (by simp)
  rw [hhistory, log_race] at hunbroken ⊢
  refine ⟨rfl, hunbroken ?_ ?_⟩
  · simp
  · simp

end Office

end DocStore
