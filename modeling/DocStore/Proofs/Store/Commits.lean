import DocStore.Proofs.Store.Ledger

-- Which writer a change was committed by, and on what snapshot.
namespace DocStore

namespace CommitLog

variable {log : CommitLog} {version : Nat} {key : Bytes}

-- A key that has changed since a version was written last by a later one, which left it as it is.
theorem exists_written_last (h : (log.mapAt version).get? key ≠ log.current.get? key) :
    ∃ last value, version < last ∧ log.written? last key = some value ∧
      (∀ later, last < later → log.written? later key = none) ∧
      value = log.current.get? key := by
  induction log using List.reverseRecOn with
  | nil => simp at h
  | append_singleton log commit ih =>
      cases hwritten : commit.writes.get? key with
      | some value =>
          refine ⟨log.length + 1, value, ?_, ?_, ?_, ?_⟩
          · by_contra hlt
            exact h (by rw [mapAt_of_length_le (by simp; omega)])
          · rw [written?_append_length, hwritten]
          · exact fun later hlater => written?_of_length_lt (by simpa using hlater)
          · rw [current_append, SortedMap.get?_setAll, hwritten, Option.getD_some]
      | none =>
          have hcurrent : (current (log ++ [commit])).get? key = (current log).get? key := by
            rw [current_append, SortedMap.get?_setAll, hwritten, Option.getD_none]
          have hbefore : (mapAt log version).get? key ≠ (current log).get? key := by
            rcases Nat.lt_or_ge log.length version with hlt | hle
            · exact absurd (by rw [mapAt_of_length_le (by simp; omega)]) h
            · rwa [mapAt_append _ hle, hcurrent] at h
          obtain ⟨last, value, hlt, hvalue, hlater, heq⟩ := ih hbefore
          have hbound := le_length_of_written? hvalue
          refine ⟨last, value, hlt, ?_, fun later hl => ?_, by rw [hcurrent, heq]⟩
          · rw [written?_append_of_le commit hbound, hvalue]
          · rcases Nat.lt_trichotomy later (log.length + 1) with hlt' | rfl | hgt
            · rw [written?_append_of_le commit (by omega)]
              exact hlater later hl
            · rw [written?_append_length, hwritten]
            · exact written?_of_length_lt (by simpa using hgt)

end CommitLog

namespace Chronicle

-- The snapshots of all handles there ever were.
def bases (c : Chronicle) : List Nat := c.outlooks.map (·.base)

theorem bases_modify (c : Chronicle) (n : Nat) {f : Outlook → Outlook}
    (hf : ∀ o, (f o).base = o.base) : (c.modify n f).bases = c.bases := by
  simp only [bases, modify]
  refine List.ext_getElem? fun i => ?_
  simp only [List.getElem?_map, List.getElem?_modify]
  cases c.outlooks[i]? with
  | none => rfl
  | some o =>
      by_cases hn : n = i
      · simp [hn, hf]
      · simp [hn]

-- A handle keeps its snapshot.
theorem bases_record (c : Chronicle) (call : Call) (answer : Answer) :
    c.bases <+: (c.record call answer).bases := by
  have henter : ∀ isWriter keys, c.bases <+: (c.enter isWriter keys).bases :=
    fun isWriter keys => by simp [bases, enter]
  have hmodify : ∀ n (f : Outlook → Outlook), (∀ o, (f o).base = o.base) →
      c.bases <+: (c.modify n f).bases := fun n f hf =>
    (c.bases_modify n hf).symm ▸ List.prefix_rfl
  cases call with
  | read | write | writeExclusive =>
      rcases answer with (_ | _) | _ | _ | _ | _
      case opened.ok => exact henter _ _
      all_goals exact List.prefix_rfl
  | get => exact List.prefix_rfl
  | iter n range => exact hmodify n _ fun o => rfl
  | pull n i signal =>
      cases answer
      case item => exact hmodify n _ fun o => rfl
      all_goals exact List.prefix_rfl
  | buffer n key value =>
      refine hmodify n _ fun o => ?_
      unfold Outlook.write
      split <;> rfl
  | commit n signal =>
      refine hmodify n _ fun o => ?_
      unfold Outlook.finish
      split <;> rfl
  | close n => exact hmodify n _ fun o => rfl

end Chronicle

namespace Office

variable {kind : BackendKind} {x : Office}

-- Every change was prepared on the snapshot of the handle that committed it.
def Filed (x : Office) : Prop :=
  ∀ (i : Nat) (e : Entry) (commit : Commit), x.log[i]? = some e →
    x.course.chronicle.log[i]? = some commit →
      ∃ base, x.course.chronicle.bases[commit.client]? = some base ∧ base ≤ i ∧
        e.job.Prepares (x.course.chronicle.log.mapAt base) commit.writes e.answer e.change

-- What a step commits that makes a change.
structure Commits (x : Office) (event : Event) (e : Entry) (commit : Commit) : Prop where
  log : (x.step event).log = x.log ++ [e]
  commits : (x.step event).course.chronicle.log = x.course.chronicle.log ++ [commit]
  writer : ∃ w, x.writers.get? commit.client = some w ∧ w.job = e.job
  prepared : ∃ base, x.course.chronicle.bases[commit.client]? = some base ∧
    base ≤ x.course.chronicle.log.length ∧
      e.job.Prepares (x.course.chronicle.log.mapAt base) commit.writes e.answer e.change

-- Without a new change nothing is committed.
theorem Sound.commits_eq (h : x.Sound kind) (event : Event) (hlog : (x.step event).log = x.log) :
    (x.step event).course.chronicle.log = x.course.chronicle.log := by
  have hlength := (h.step event).booked.length_eq
  rw [hlog, h.booked.length_eq] at hlength
  exact ((x.commits_step event).eq_of_length hlength).symm

-- A step makes one change, or leaves what is committed as it was.
theorem Sound.step_cases (h : x.Sound kind) (event : Event) :
    ((x.step event).log = x.log ∧
        (x.step event).course.chronicle.log = x.course.chronicle.log) ∨
      ∃ e commit, x.Commits event e commit := by
  cases event with
  | take job signal stop => exact .inl ⟨log_take .., h.commits_eq _ (log_take ..)⟩
  | work n signal verdict now => exact .inl ⟨log_work .., h.commits_eq _ (log_work ..)⟩
  | leave n => exact .inl ⟨rfl, h.commits_eq _ rfl⟩
  | look call =>
      have hlog : (x.step (.look call)).log = x.log := by
        simp only [Office.step]
        split <;> rfl
      exact .inl ⟨hlog, h.commits_eq _ hlog⟩
  | commit n signal =>
      by_cases hlog : (x.step (.commit n signal)).log = x.log
      · exact .inl ⟨hlog, h.commits_eq _ hlog⟩
      · have hstep : x.step (.commit n signal) = x.commit n signal := rfl
        rw [hstep] at hlog
        unfold Office.commit at hlog
        split at hlog
        · next job change answer hw =>
          split at hlog
          · next hok =>
            obtain ⟨o, ho, hwriting, hprepares, hcommits⟩ :=
              h.committed n signal ⟨job, answer, change⟩ hw hok
            refine .inr ⟨⟨job, answer, change⟩, ⟨n, o.writes⟩, ?_, ?_, ⟨_, hw, rfl⟩, o.base, ?_,
              h.faithful.past n o ho hwriting, hprepares⟩
            · simp only [hstep, Office.commit, hw, hok]
            · simp only [hstep, Office.commit, hw, hok, Office.call, hcommits]
            · simp [Chronicle.bases, ho]
          · exact absurd rfl hlog
        · exact absurd rfl hlog

theorem bases_step (x : Office) (event : Event) :
    x.course.chronicle.bases <+: (x.step event).course.chronicle.bases := by
  rcases x.course_step event with hcourse | ⟨call, hcourse⟩
  · exact hcourse ▸ List.prefix_rfl
  · rw [hcourse]
    exact x.course.chronicle.bases_record call _

theorem Filed.step (hfiled : x.Filed) (h : x.Sound kind) (event : Event) :
    (x.step event).Filed := by
  intro i e commit he hcommit
  have hkeeps : ∀ {client base : Nat}, x.course.chronicle.bases[client]? = some base →
      (x.step event).course.chronicle.bases[client]? = some base := fun hbase => by
    obtain ⟨more, hmore⟩ := x.bases_step event
    obtain ⟨hlt, -⟩ := List.getElem?_eq_some_iff.mp hbase
    rw [← hmore, List.getElem?_append_left hlt, hbase]
  have hlength := h.booked.length_eq
  rcases h.step_cases event with ⟨hlog, hcommits⟩ | ⟨e', commit', hc⟩
  · rw [hlog] at he
    rw [hcommits] at hcommit ⊢
    obtain ⟨base, hbase, hle, hprepares⟩ := hfiled i e commit he hcommit
    exact ⟨base, hkeeps hbase, hle, hprepares⟩
  · rw [hc.log] at he
    rw [hc.commits] at hcommit ⊢
    rcases Nat.lt_trichotomy i x.log.length with hlt | rfl | hgt
    · rw [List.getElem?_append_left hlt] at he
      rw [List.getElem?_append_left (hlength ▸ hlt)] at hcommit
      obtain ⟨base, hbase, hle, hprepares⟩ := hfiled i e commit he hcommit
      refine ⟨base, hkeeps hbase, hle, ?_⟩
      rwa [CommitLog.mapAt_append _ (by omega)]
    · obtain rfl : e' = e := by simpa using he
      obtain rfl : commit' = commit := by simpa [hlength] using hcommit
      obtain ⟨base, hbase, hle, hprepares⟩ := hc.prepared
      refine ⟨base, hkeeps hbase, hlength ▸ hle, ?_⟩
      rwa [CommitLog.mapAt_append _ hle]
    · rw [List.getElem?_eq_none (by simp; omega)] at he
      cases he

end Office

end DocStore
