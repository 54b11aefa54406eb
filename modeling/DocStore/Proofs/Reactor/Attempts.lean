import Mathlib.Data.List.Basic
import DocStore.Proofs.Context
import DocStore.Reactor.Registry

-- A change is brought to every reactor as often as it takes, within a limit, whatever became of the
-- reactors before.
namespace DocStore

-- A change that is brought to reactors, and what is given to them with it.
structure Delivery (σ : Type) where
  host : Host σ
  config : ReconcileConfig
  ctx : Context
  old : Option Document
  new : Option Document

-- The turn of one reactor, and what it finds when it comes.
structure Round (σ : Type) where
  id : String
  reactor : Reactor
  start : Site σ

-- A site beside a list of the reactors that were called, one entry for each call.
def Site.noting {σ : Type} (site : Site σ) (called : List Instance) : Site (σ × List Instance) :=
  ⟨site.kv, site.now, (site.host, called)⟩

-- The same runtimes, which note down whom they are to bring changes to.
def Host.noting {σ : Type} (host : Host σ) : Host (σ × List Instance) where
  start inst s :=
    let (started, kept) := host.start inst s.1
    (started, (kept, s.2))
  validate inst ctx old new site :=
    let (verdict, seen) := host.validate inst ctx old new ⟨site.kv, site.now, site.host.1⟩
    (verdict, seen.noting site.host.2)
  reconcile inst ctx old new site :=
    let (outcome, seen) := host.reconcile inst ctx old new ⟨site.kv, site.now, site.host.1⟩
    (outcome, seen.noting (site.host.2 ++ [inst]))
  stop inst s := (host.stop inst s.1, s.2)

-- What the runtimes note down of so many calls. A reactor that is built in has no runtime.
def Reactor.noted (n : Nat) : Reactor → List Instance
  | .immutable => []
  | .started inst => List.replicate n inst

theorem Reactor.noted_succ (reactor : Reactor) (n : Nat) :
    reactor.noted (n + 1) = reactor.noted n ++ reactor.noted 1 := by
  cases reactor with
  | immutable => rfl
  | started inst => exact List.replicate_succ'

namespace Delivery

variable {σ : Type} (d : Delivery σ)

def call (reactor : Reactor) (site : Site σ) : Outcome × Site σ :=
  d.host.reconcileWith reactor d.ctx d.old d.new site

-- The wait after a failed call, where the calls of a reactor are counted from zero.
def pause (n : Nat) (site : Site σ) : Site σ :=
  { site with now := site.now + Time.ofMillis (d.config.retry.longestDelay n) }

-- What a reactor finds at each call, if it is called again and again.
def siteAt (round : Round σ) : Nat → Site σ
  | 0 => round.start
  | n + 1 => d.pause n (d.call round.reactor (siteAt round n)).2

-- How that call ends.
def answer (round : Round σ) (n : Nat) : Outcome := (d.call round.reactor (d.siteAt round n)).1

-- The number of the first call that succeeds, where the first of all is number one.
def FirstSuccess (round : Round σ) : Nat → Prop
  | 0 => False
  | n + 1 => d.answer round n = .done ∧ ∀ m < n, d.answer round m ≠ .done

instance (round : Round σ) : DecidablePred (d.FirstSuccess round)
  | 0 => .isFalse id
  | n + 1 => inferInstanceAs (Decidable
      (d.answer round n = .done ∧ ∀ m < n, d.answer round m ≠ .done))

-- How often a reactor is called, up to a limit: until a call succeeds.
def calls (round : Round σ) : Nat :=
  ((List.range d.config.maxAttempts).find? (fun n => d.answer round n = .done)).elim
    d.config.maxAttempts (· + 1)

-- The last of these calls, and what it leaves behind.
def last (round : Round σ) : Outcome × Site σ :=
  d.call round.reactor (d.siteAt round (d.calls round - 1))

-- The error of a reactor that did not succeed.
def failure? (round : Round σ) : Option Error :=
  match (d.last round).1 with
  | .failed error => some error
  | _ => none

-- The turns of the listed reactors, one after the other. Those that are not running have none.
def rounds (r : Registry) : List String → Site σ → List (Round σ)
  | [], _ => []
  | id :: rest, site =>
    match r.get? id with
    | none => rounds r rest site
    | some reactor =>
      let round : Round σ := ⟨id, reactor, site⟩
      round :: rounds r rest (d.last round).2

-- What the turns leave behind.
def after (rounds : List (Round σ)) (site : Site σ) : Site σ :=
  (rounds.getLast?).elim site (fun round => (d.last round).2)

-- The last failure, if there was one.
def verdict (rounds : List (Round σ)) (outcome : Outcome) : Outcome :=
  ((rounds.filterMap d.failure?).getLast?).elim outcome .failed

-- Every call either succeeds or fails with an error that does not tell to stop.
def Plain : Prop := ∀ inst site, (d.host.reconcile inst d.ctx d.old d.new site).1 = .done ∨
  ∃ error, (d.host.reconcile inst d.ctx d.old d.new site).1 = .failed error ∧
    error.isCancelled = false

section Calls

variable {d} {round : Round σ}

theorem Plain.call (h : d.Plain) (reactor : Reactor) (site : Site σ) :
    (d.call reactor site).1 = .done ∨
      ∃ error, (d.call reactor site).1 = .failed error ∧ error.isCancelled = false := by
  cases reactor with
  | immutable => exact .inl rfl
  | started inst => exact h inst site

variable (d round) in
-- Either some call within the limit succeeds, and it is the last, or there are as many as allowed.
theorem calls_cases :
    (∃ n < d.config.maxAttempts, d.calls round = n + 1 ∧ d.FirstSuccess round (n + 1)) ∨
      d.calls round = d.config.maxAttempts ∧
        ∀ n < d.config.maxAttempts, d.answer round n ≠ .done := by
  unfold calls
  cases hfind : (List.range d.config.maxAttempts).find? (fun n => d.answer round n = .done) with
  | none =>
      rw [List.find?_range_eq_none] at hfind
      exact .inr ⟨rfl, by simpa using hfind⟩
  | some n =>
      simp only [List.find?_range_eq_some, List.mem_range, decide_eq_true_eq, Bool.not_eq_true',
        decide_eq_false_iff_not] at hfind
      obtain ⟨hdone, hlt, hbefore⟩ := hfind
      exact .inl ⟨n, hlt, rfl, hdone, hbefore⟩

-- A reactor has one first success at most.
theorem FirstSuccess.unique {k l : Nat} (hk : d.FirstSuccess round k) (hl : d.FirstSuccess round l) :
    k = l := by
  cases k with
  | zero => exact hk.elim
  | succ m =>
      cases l with
      | zero => exact hl.elim
      | succ n =>
          have hmn : ¬m < n := fun hlt => hl.2 m hlt hk.1
          have hnm : ¬n < m := fun hlt => hk.2 n hlt hl.1
          omega

theorem calls_of_firstSuccess {k : Nat} (h : d.FirstSuccess round k) :
    d.calls round = min k d.config.maxAttempts := by
  rcases d.calls_cases round with ⟨n, hlt, hcalls, hfirst⟩ | ⟨hcalls, hnever⟩
  · obtain rfl := h.unique hfirst
    rw [hcalls, Nat.min_eq_left hlt]
  · cases k with
    | zero => exact h.elim
    | succ n =>
        have hle : ¬n < d.config.maxAttempts := fun hlt => hnever n hlt h.1
        omega

-- A reactor that never succeeds is called as often as is allowed.
theorem calls_of_never (h : ∀ k ≤ d.config.maxAttempts, ¬d.FirstSuccess round k) :
    d.calls round = d.config.maxAttempts := by
  rcases d.calls_cases round with ⟨n, hlt, -, hfirst⟩ | ⟨hcalls, -⟩
  · exact absurd hfirst (h (n + 1) hlt)
  · exact hcalls

theorem calls_pos (hmax : 1 ≤ d.config.maxAttempts) : 1 ≤ d.calls round := by
  rcases d.calls_cases round with ⟨n, -, hcalls, -⟩ | ⟨hcalls, -⟩ <;> omega

-- The calls stop with the first one that succeeds, or with the last that is allowed.
theorem calls_eq {n : Nat} (hlt : n < d.config.maxAttempts)
    (hbefore : ∀ m < n, d.answer round m ≠ .done)
    (hend : d.answer round n = .done ∨ n + 1 = d.config.maxAttempts) : d.calls round = n + 1 := by
  by_cases hdone : d.answer round n = .done
  · have hfirst : d.FirstSuccess round (n + 1) := ⟨hdone, hbefore⟩
    rw [calls_of_firstSuccess hfirst, Nat.min_eq_left hlt]
  · have hlast : n + 1 = d.config.maxAttempts := hend.resolve_left hdone
    rw [hlast]
    apply calls_of_never
    intro k hk hfirst
    cases k with
    | zero => exact hfirst
    | succ m =>
        by_cases heq : m = n
        · exact hdone (heq ▸ hfirst.1)
        · exact hbefore m (by omega) hfirst.1

-- A reactor gives up if and only if no call within the limit succeeds, and its failure is that of the
-- last call.
theorem failure?_cases (hmax : 1 ≤ d.config.maxAttempts) (hplain : d.Plain) (round : Round σ) :
    d.failure? round = none ∧ (∃ k ≤ d.config.maxAttempts, d.FirstSuccess round k) ∨
      ∃ error, d.failure? round = some error ∧
        (∀ k ≤ d.config.maxAttempts, ¬d.FirstSuccess round k) ∧
        d.answer round (d.config.maxAttempts - 1) = .failed error := by
  rcases d.calls_cases round with ⟨n, hlt, hcalls, hfirst⟩ | ⟨hcalls, hnever⟩
  · have hlast : (d.last round).1 = .done := by
      rw [last, hcalls, Nat.add_sub_cancel]
      exact hfirst.1
    exact .inl ⟨by simp only [failure?, hlast], n + 1, hlt, hfirst⟩
  · have hlast : (d.last round).1 = d.answer round (d.config.maxAttempts - 1) := by
      rw [last, hcalls]
      rfl
    rcases hplain.call round.reactor (d.siteAt round (d.config.maxAttempts - 1)) with
      hdone | ⟨error, hfailed, -⟩
    · exact absurd hdone (hnever _ (by omega))
    · refine .inr ⟨error, by simp only [failure?, hlast.trans hfailed], ?_, hfailed⟩
      intro k hk hfirst
      cases k with
      | zero => exact hfirst
      | succ m => exact hnever m hk hfirst.1

end Calls

section Turns

variable {d}

-- A reactor that is to be called again after some calls that failed gets the rest of its calls.
theorem bring_eq (hgoes : ∀ now, d.ctx.signal now = .go) (hplain : d.Plain) (round : Round σ)
    (left n : Nat) (hcount : n + left + 1 = d.config.maxAttempts)
    (hbefore : ∀ m < n, d.answer round m ≠ .done) :
    Registry.bring d.host d.config.retry d.ctx round.reactor d.old d.new left (d.siteAt round n) =
      (.ok (d.failure? round), (d.last round).2) := by
  have hlast (hend : d.answer round n = .done ∨ n + 1 = d.config.maxAttempts) :
      d.last round = d.call round.reactor (d.siteAt round n) := by
    rw [last, calls_eq (by omega) hbefore hend, Nat.add_sub_cancel]
  unfold Registry.bring
  rcases hcall : d.call round.reactor (d.siteAt round n) with ⟨outcome, site⟩
  have hanswer : d.answer round n = outcome := congrArg Prod.fst hcall
  rw [show d.host.reconcileWith round.reactor d.ctx d.old d.new (d.siteAt round n) =
    (outcome, site) from hcall]
  rcases hplain.call round.reactor (d.siteAt round n) with hdone | ⟨error, hfailed, hgo⟩
  · obtain rfl : outcome = .done := hanswer.symm.trans hdone
    simp only [failure?, hlast (.inl hanswer), hcall]
  · obtain rfl : outcome = .failed error := hanswer.symm.trans hfailed
    cases left with
    | zero => simp only [failure?, hlast (.inr hcount), hcall]
    | succ left =>
        have hdelay : d.config.retry.maxRetries - (left + 1) = n := by
          simp only [ReconcileConfig.retry]
          omega
        have hnext : d.siteAt round (n + 1) = d.pause n site := by
          rw [siteAt, hcall]
        simp only [hgo, Bool.false_eq_true, ite_false, hdelay, d.ctx.wait_of_endless hgoes]
        have hbefore' : ∀ m < n + 1, d.answer round m ≠ .done := by
          intro m hm
          by_cases heq : m = n
          · rw [heq, hanswer]
            simp
          · exact hbefore m (by omega)
        have hrest := bring_eq hgoes hplain round left (n + 1) (by omega) hbefore'
        rw [hnext] at hrest
        exact hrest

theorem bring_start (hgoes : ∀ now, d.ctx.signal now = .go) (hplain : d.Plain)
    (hmax : 1 ≤ d.config.maxAttempts) (round : Round σ) :
    Registry.bring d.host d.config.retry d.ctx round.reactor d.old d.new d.config.retry.maxRetries
      round.start = (.ok (d.failure? round), (d.last round).2) := by
  refine bring_eq hgoes hplain round _ 0 ?_ (fun m hm => absurd hm (Nat.not_lt_zero m))
  simp only [ReconcileConfig.retry]
  omega

theorem after_cons (round : Round σ) (rest : List (Round σ)) (site : Site σ) :
    d.after (round :: rest) site = d.after rest (d.last round).2 := by
  unfold after
  rw [List.getLast?_cons]
  cases rest.getLast? <;> rfl

theorem verdict_cons (round : Round σ) (rest : List (Round σ)) (outcome : Outcome) :
    d.verdict (round :: rest) outcome =
      d.verdict rest ((d.failure? round).elim outcome .failed) := by
  unfold verdict
  rw [List.filterMap_cons]
  cases d.failure? round with
  | none => rfl
  | some error =>
      simp only [List.getLast?_cons]
      cases (rest.filterMap d.failure?).getLast? <;> rfl

theorem reconcile_eq (hgoes : ∀ now, d.ctx.signal now = .go) (hplain : d.Plain)
    (hmax : 1 ≤ d.config.maxAttempts) (r : Registry) (ids : List String) (outcome : Outcome)
    (site : Site σ) :
    r.reconcile d.host d.config.retry d.ctx d.old d.new ids outcome site =
      (d.verdict (d.rounds r ids site) outcome, d.after (d.rounds r ids site) site) := by
  induction ids generalizing outcome site with
  | nil => rfl
  | cons id rest ih =>
      unfold Registry.reconcile rounds
      cases r.get? id with
      | none => exact ih outcome site
      | some reactor =>
          have hbring := bring_start hgoes hplain hmax ⟨id, reactor, site⟩
          simp only [hbring, after_cons, verdict_cons]
          cases d.failure? ⟨id, reactor, site⟩ with
          | none => exact ih outcome _
          | some error => exact ih (.failed error) _

-- The last failure is that of the last reactor that has one.
theorem verdict_append (front back : List (Round σ)) (round : Round σ) {error : Error}
    (hround : d.failure? round = some error) (hback : ∀ later ∈ back, d.failure? later = none)
    (outcome : Outcome) : d.verdict (front ++ round :: back) outcome = .failed error := by
  induction front generalizing outcome with
  | nil =>
      have hnone : back.filterMap d.failure? = [] := List.filterMap_eq_nil_iff.mpr hback
      rw [List.nil_append, verdict_cons, hround, verdict, hnone]
      rfl
  | cons head front ih => rw [List.cons_append, verdict_cons, ih]

theorem verdict_eq_done_iff (rounds : List (Round σ)) :
    d.verdict rounds .done = .done ↔ ∀ round ∈ rounds, d.failure? round = none := by
  rw [← List.filterMap_eq_nil_iff, ← List.getLast?_eq_none_iff, verdict]
  cases (rounds.filterMap d.failure?).getLast? <;> simp

end Turns

section Rounds

variable (r : Registry) (ids : List String) (site : Site σ)

theorem ids_rounds : (d.rounds r ids site).map (fun round => round.id) = ids.filter r.isRunning := by
  induction ids generalizing site with
  | nil => rfl
  | cons id rest ih =>
      unfold rounds
      cases hget : r.get? id with
      | none =>
          rw [List.filter_cons_of_neg (by simp [Registry.isRunning, hget])]
          exact ih site
      | some reactor =>
          rw [List.filter_cons_of_pos (by simp [Registry.isRunning, hget]), List.map_cons, ih]

theorem get?_of_mem_rounds {round : Round σ} (h : round ∈ d.rounds r ids site) :
    r.get? round.id = some round.reactor := by
  induction ids generalizing site with
  | nil => cases h
  | cons id rest ih =>
      unfold rounds at h
      cases hget : r.get? id with
      | none =>
          rw [hget] at h
          exact ih site h
      | some reactor =>
          rw [hget] at h
          rcases List.mem_cons.mp h with rfl | h
          · exact hget
          · exact ih _ h

end Rounds

section Noting

-- The same delivery, by runtimes that note down their calls.
def noting : Delivery (σ × List Instance) := { d with host := d.host.noting }

theorem call_noting (reactor : Reactor) (site : Site σ) (called : List Instance) :
    d.noting.call reactor (site.noting called) =
      ((d.call reactor site).1, (d.call reactor site).2.noting (called ++ reactor.noted 1)) := by
  cases reactor with
  | immutable => simp [call, Host.reconcileWith, Reactor.noted]
  | started inst => rfl

theorem pause_noting (n : Nat) (site : Site σ) (called : List Instance) :
    d.noting.pause n (site.noting called) = (d.pause n site).noting called := by
  have hconfig : d.noting.config = d.config := rfl
  simp only [pause, hconfig]
  rfl

theorem siteAt_noting (id : String) (reactor : Reactor) (site : Site σ) (called : List Instance)
    (n : Nat) : d.noting.siteAt ⟨id, reactor, site.noting called⟩ n =
      (d.siteAt ⟨id, reactor, site⟩ n).noting (called ++ reactor.noted n) := by
  induction n with
  | zero => cases reactor <;> simp [siteAt, Reactor.noted]
  | succ n ih =>
      simp only [siteAt, ih, call_noting, pause_noting, reactor.noted_succ n, ← List.append_assoc]

theorem calls_noting (id : String) (reactor : Reactor) (site : Site σ) (called : List Instance) :
    d.noting.calls ⟨id, reactor, site.noting called⟩ = d.calls ⟨id, reactor, site⟩ := by
  have hanswer (n : Nat) : d.noting.answer ⟨id, reactor, site.noting called⟩ n =
      d.answer ⟨id, reactor, site⟩ n := by
    simp only [answer, siteAt_noting, call_noting]
  unfold calls
  simp only [hanswer]
  rfl

theorem last_noting (hmax : 1 ≤ d.config.maxAttempts) (id : String) (reactor : Reactor)
    (site : Site σ) (called : List Instance) :
    d.noting.last ⟨id, reactor, site.noting called⟩ =
      ((d.last ⟨id, reactor, site⟩).1, (d.last ⟨id, reactor, site⟩).2.noting
        (called ++ reactor.noted (d.calls ⟨id, reactor, site⟩))) := by
  obtain ⟨n, hcalls⟩ : ∃ n, d.calls ⟨id, reactor, site⟩ = n + 1 :=
    Nat.exists_eq_succ_of_ne_zero (Nat.ne_of_gt (calls_pos hmax))
  simp only [last, calls_noting, hcalls, Nat.add_sub_cancel, siteAt_noting, call_noting,
    reactor.noted_succ n, List.append_assoc]

theorem Plain.noting (h : d.Plain) : d.noting.Plain :=
  fun inst site => h inst ⟨site.kv, site.now, site.host.1⟩

-- Noting down the calls makes no difference, and this is what is noted.
theorem reconcile_noting (hgoes : ∀ now, d.ctx.signal now = .go) (hplain : d.Plain)
    (hmax : 1 ≤ d.config.maxAttempts) (r : Registry) (ids : List String) (outcome : Outcome)
    (site : Site σ) (called : List Instance) :
    r.reconcile d.host.noting d.config.retry d.ctx d.old d.new ids outcome (site.noting called) =
      let told := r.reconcile d.host d.config.retry d.ctx d.old d.new ids outcome site
      (told.1, told.2.noting (called ++
        (d.rounds r ids site).flatMap (fun round => round.reactor.noted (d.calls round)))) := by
  induction ids generalizing outcome site called with
  | nil => simp [Registry.reconcile, rounds]
  | cons id rest ih =>
      unfold Registry.reconcile rounds
      cases r.get? id with
      | none => exact ih outcome site called
      | some reactor =>
          have hbare := bring_start hgoes hplain hmax ⟨id, reactor, site⟩
          have hnoting := bring_start (d := d.noting) hgoes hplain.noting hmax
            ⟨id, reactor, site.noting called⟩
          have hlast := d.last_noting hmax id reactor site called
          have hfailure : d.noting.failure? ⟨id, reactor, site.noting called⟩ =
              d.failure? ⟨id, reactor, site⟩ := by
            simp only [failure?, hlast]
          rw [hfailure, hlast] at hnoting
          simp only [noting] at hnoting
          simp only [hbare, hnoting, List.flatMap_cons, ← List.append_assoc]
          cases d.failure? ⟨id, reactor, site⟩ with
          | none => exact ih outcome _ _
          | some error => exact ih (.failed error) _ _

end Noting

-- Every listed reactor that runs is called until it succeeds or has had all its attempts, in the order
-- of the list, and the outcome is the final failure of the last one that gave up, if there was one.
theorem attempts_exact (hmax : 1 ≤ d.config.maxAttempts) (hgoes : ∀ now, d.ctx.signal now = .go)
    (hplain : d.Plain) (r : Registry) (ids : List String) (site : Site σ) :
    let limit := d.config.maxAttempts
    let rounds := d.rounds r ids site
    let (outcome, after) := r.reconcile d.host d.config.retry d.ctx d.old d.new ids .done site
    rounds.map (fun round => round.id) = ids.filter r.isRunning ∧
    (∀ round ∈ rounds, r.get? round.id = some round.reactor ∧
      (∀ k, d.FirstSuccess round k → d.calls round = min k limit) ∧
      ((∀ k, ¬d.FirstSuccess round k) → d.calls round = limit)) ∧
    r.reconcile d.host.noting d.config.retry d.ctx d.old d.new ids .done (site.noting []) =
      (outcome,
        after.noting (rounds.flatMap (fun round => round.reactor.noted (d.calls round)))) ∧
    (outcome = .done ↔ ∀ round ∈ rounds, ∃ k ≤ limit, d.FirstSuccess round k) ∧
    ∀ front round back, rounds = front ++ round :: back →
      (∀ k ≤ limit, ¬d.FirstSuccess round k) →
      (∀ later ∈ back, ∃ k ≤ limit, d.FirstSuccess later k) →
      outcome = d.answer round (limit - 1) := by
  have hnoting := reconcile_noting d hgoes hplain hmax r ids .done site []
  have heq := reconcile_eq hgoes hplain hmax r ids .done site
  have hfailure (round : Round σ) :
      d.failure? round = none ↔ ∃ k ≤ d.config.maxAttempts, d.FirstSuccess round k := by
    rcases failure?_cases hmax hplain round with ⟨hnone, hfirst⟩ | ⟨error, hsome, hnever, -⟩
    · exact ⟨fun _ => hfirst, fun _ => hnone⟩
    · simp only [hsome, reduceCtorEq, false_iff]
      rintro ⟨k, hk, hfirst⟩
      exact hnever k hk hfirst
  simp only [heq] at hnoting ⊢
  refine ⟨d.ids_rounds r ids site, ?_, hnoting, ?_, ?_⟩
  · intro round hm
    refine ⟨d.get?_of_mem_rounds r ids site hm, fun k hk => calls_of_firstSuccess hk, ?_⟩
    exact fun hnever => calls_of_never (fun k _ => hnever k)
  · simp only [verdict_eq_done_iff, hfailure]
  · intro front round back hsplit hnever hback
    rcases failure?_cases hmax hplain round with ⟨-, k, hk, hfirst⟩ | ⟨error, hsome, -, hlast⟩
    · exact absurd hfirst (hnever k hk)
    · rw [hsplit, verdict_append front back round hsome (fun later hm =>
        (hfailure later).mpr (hback later hm)), hlast]

-- A runtime whose first two calls fail, and all calls of its second reactor.
def flaky : Delivery Nat where
  host :=
    { start := fun _ s => (.ok (), s)
      validate := fun _ _ _ new site => (.ok new, site)
      reconcile := fun inst _ _ _ site =>
        (if inst.number = 2 ∨ site.host < 2 then .failed (.internal "not yet") else .done,
          { site with host := site.host + 1 })
      stop := fun _ s => s }
  config := { ReconcileConfig.standard with maxAttempts := 3 }
  ctx := Context.background
  old := none
  new := none

def flakyRegistry : Registry :=
  { Registry.new with
    running := (Registry.new.running.insert "a" (.started ⟨1, "probe", default⟩)).insert "b"
      (.started ⟨2, "probe", default⟩) }

theorem attempts_exact_flaky :
    let start : Site Nat := ⟨Kv.new .mvcc, 0, 0⟩
    let ids := ["a", "missing", "b", "Immutable", "a"]
    let rounds := flaky.rounds flakyRegistry ids start
    rounds.map (fun round => (round.id, flaky.calls round)) =
        [("a", 3), ("b", 3), ("Immutable", 1), ("a", 1)] ∧
      (flakyRegistry.reconcile flaky.host flaky.config.retry flaky.ctx none none ids .done start).1 =
        .failed (.internal "not yet") := by
  intro start ids rounds
  have hplain : flaky.Plain := by
    intro inst site
    by_cases h : inst.number = 2 ∨ site.host < 2
    · exact .inr ⟨.internal "not yet", if_pos h, rfl⟩
    · exact .inl (if_neg h)
  obtain ⟨-, -, -, -, hfailed⟩ :=
    attempts_exact flaky (by decide) (fun _ => rfl) hplain flakyRegistry ids start
  have hrounds : ∃ a b rest, rounds = [a] ++ b :: rest ∧
      (∀ k ≤ flaky.config.maxAttempts, ¬flaky.FirstSuccess b k) ∧
      (∀ later ∈ rest, flaky.FirstSuccess later 1) ∧
      flaky.answer b 2 = .failed (.internal "not yet") :=
    ⟨_, _, _, rfl, by decide, by decide, rfl⟩
  obtain ⟨a, b, rest, hsplit, hnever, hrest, hanswer⟩ := hrounds
  refine ⟨rfl, (hfailed [a] b rest hsplit hnever ?_).trans hanswer⟩
  exact fun later hm => ⟨1, by decide, hrest later hm⟩

end Delivery

end DocStore
