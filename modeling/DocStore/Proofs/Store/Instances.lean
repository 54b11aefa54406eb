import DocStore.Proofs.Store.Diary

-- A reactor that is started is put to work or stopped, and it is stopped once.
namespace DocStore

-- The started reactor that this is, unless it is built in.
def Reactor.started? : Reactor → Option Instance
  | .immutable => none
  | .started inst => some inst

theorem Host.diary_stopReactor {σ : Type} (host : Host σ) (reactor : Reactor) (s : σ × Diary) :
    (host.recording.stopReactor reactor s).2 =
      { s.2 with stopped := s.2.stopped ++ reactor.started?.toList } := by
  cases reactor with
  | immutable => simp [Host.stopReactor, Reactor.started?]
  | started inst => rfl

namespace Registry

-- The started reactors that run.
def instances (running : SortedMap String Reactor) : List Instance :=
  running.toList.filterMap (fun e => e.2.started?)

section Instances

variable {running : SortedMap String Reactor} {id : String} {reactor : Reactor} {inst : Instance}

theorem mem_instances_iff :
    inst ∈ instances running ↔ ∃ id, running.get? id = some (.started inst) := by
  have hstarted : ∀ reactor : Reactor, reactor.started? = some inst ↔ reactor = .started inst := by
    intro reactor
    cases reactor <;> simp [Reactor.started?]
  simp only [instances, List.mem_filterMap, hstarted, SortedMap.get?_eq_some_iff]
  constructor
  · rintro ⟨⟨id, _⟩, hm, rfl⟩
    exact ⟨id, hm⟩
  · rintro ⟨id, hm⟩
    exact ⟨_, hm, rfl⟩

theorem instances_of_get? (h : running.get? id = some reactor) :
    (↑(instances running) : Multiset Instance) =
      ↑reactor.started?.toList + ↑(instances (running.erase id)) := by
  have hperm := (running.perm_cons_erase h).filterMap (fun e => e.2.started?)
  rw [Multiset.coe_add, Multiset.coe_eq_coe]
  refine hperm.trans (.of_eq ?_)
  rw [List.filterMap_cons]
  cases reactor <;> rfl

theorem instances_insert (running : SortedMap String Reactor) (id : String) (reactor : Reactor) :
    (↑(instances (running.insert id reactor)) : Multiset Instance) =
      ↑reactor.started?.toList + ↑(instances (running.erase id)) := by
  have hget : (running.insert id reactor).get? id = some reactor := by
    rw [SortedMap.get?_insert, if_pos rfl]
  rw [instances_of_get? hget, SortedMap.erase_insert]

theorem instances_filterKeys (running : SortedMap String Reactor) (p : String → Bool) :
    (↑(instances running) : Multiset Instance) = ↑(instances (running.filterKeys p)) +
      ↑((running.toList.filter (fun e => !p e.1)).filterMap (fun e => e.2.started?)) := by
  have hparts := (List.filter_append_perm (fun e => p e.1) running.toList).filterMap
    (fun e => e.2.started?)
  rw [List.filterMap_append] at hparts
  rw [Multiset.coe_add, Multiset.coe_eq_coe]
  exact hparts.symm

-- A reactor that runs only once runs under one id.
theorem eq_of_nodup_instances (hnodup : (instances running).Nodup) {other : String}
    (h : running.get? id = some (.started inst))
    (hother : running.get? other = some (.started inst)) : other = id := by
  by_contra hne
  have hinstances := instances_of_get? h
  rw [Multiset.coe_add, Multiset.coe_eq_coe] at hinstances
  have hnotMem := (List.nodup_cons.mp (hinstances.nodup_iff.mp hnodup)).1
  refine hnotMem (mem_instances_iff.mpr ⟨other, ?_⟩)
  rw [SortedMap.get?_erase, if_neg (Ne.symm hne)]
  exact hother

end Instances

-- All started reactors there are: those that run, and those that were stopped.
def stock (r : Registry) (diary : Diary) : Multiset Instance :=
  ↑(instances r.running) + ↑diary.stopped

-- What becomes of the registry and the diary when no reactor is started, and one may be taken into
-- stock that was started before.
structure Settles (taken : Option Instance) (r : Registry) (diary : Diary) (r' : Registry)
    (diary' : Diary) : Prop where
  builtIn : r.get? immutableId = some .immutable → r'.get? immutableId = some .immutable
  number : r'.started = r.started
  started : diary'.started = diary.started
  stock : r'.stock diary' = ↑taken.toList + r.stock diary

section Settling

variable {σ : Type} (host : Host σ) (r : Registry) {id : String} (inst : Instance) (s : σ × Diary)

theorem settles_discard (diary : Diary) : Settles (some inst) r diary r (diary.stop inst) where
  builtIn := id
  number := rfl
  started := rfl
  stock := by
    simp only [stock, Diary.stop, ← Multiset.coe_add, Option.toList_some]
    abel

theorem settles_install (hid : id ≠ immutableId) : Settles (some inst) r s.2
    (r.install host.recording id inst s).1 (r.install host.recording id inst s).2.2 := by
  have hkept : ({ r with running := r.running.insert id (.started inst) } : Registry).get?
      immutableId = r.get? immutableId := by
    rw [get?, SortedMap.get?_insert, if_neg hid, get?]
  unfold install
  cases hprevious : r.get? id with
  | none =>
      refine ⟨fun h => hkept.trans h, rfl, rfl, ?_⟩
      simp only [stock, instances_insert, SortedMap.erase_eq_self _ hprevious]
      exact add_assoc ..
  | some previous =>
      refine ⟨fun h => hkept.trans h, rfl, ?_, ?_⟩
      · rw [Host.diary_stopReactor]
      · simp only [stock, instances_insert, Host.diary_stopReactor, ← Multiset.coe_add,
          instances_of_get? hprevious, Reactor.started?]
        abel

theorem settles_remove (id : String) : Settles none r s.2 (r.remove host.recording id s).2.1
    (r.remove host.recording id s).2.2.2 := by
  have hsame : Settles none r s.2 r s.2 := ⟨fun h => h, rfl, rfl, (zero_add _).symm⟩
  unfold remove
  split
  · exact hsame
  · next hbuiltIn =>
    cases hrunning : r.get? id with
    | none => exact hsame
    | some reactor =>
        refine ⟨fun h => ?_, rfl, ?_, ?_⟩
        · rw [get?, SortedMap.get?_erase, if_neg (by simpa [isBuiltIn] using hbuiltIn)]
          exact h
        · rw [Host.diary_stopReactor]
        · simp only [stock, Host.diary_stopReactor, ← Multiset.coe_add,
            instances_of_get? hrunning, Option.toList_none, Multiset.coe_nil]
          abel

theorem diary_stopAll (entries : List (String × Reactor)) (s : σ × Diary) :
    (entries.foldl (fun s e => host.recording.stopReactor e.2 s) s).2 =
      { s.2 with stopped := s.2.stopped ++ entries.filterMap (fun e => e.2.started?) } := by
  induction entries generalizing s with
  | nil => simp
  | cons e rest ih =>
      rw [List.foldl_cons, ih, Host.diary_stopReactor, List.filterMap_cons]
      cases e.2.started? <;> simp

theorem settles_stopAll : Settles none r s.2 (r.stopAll host.recording s).1
    (r.stopAll host.recording s).2.2 := by
  unfold stopAll
  refine ⟨fun h => ?_, rfl, ?_, ?_⟩
  · exact (Assoc.get?_filter isBuiltIn immutableId r.running.entries).trans
      ((if_pos (by decide)).trans h)
  · rw [diary_stopAll]
  · simp only [stock, diary_stopAll, ← Multiset.coe_add, instances_filterKeys r.running isBuiltIn,
      Option.toList_none, Multiset.coe_nil]
    abel

end Settling

-- A document sets up no reactor, or one with the number that is next.
theorem prepare_cases {σ : Type} (host : Host σ) (r : Registry) (doc : Document) (s : σ × Diary) :
    (∃ fault kept, r.prepare host.recording doc s = (.error fault, r, (kept, s.2))) ∨
      ∃ inst kept, inst.number = r.started + 1 ∧ r.prepare host.recording doc s =
        (.ok inst, { r with started := r.started + 1 }, (kept, s.2.start inst)) := by
  unfold prepare
  cases kindOf doc with
  | error fault => exact .inl ⟨fault, s.1, rfl⟩
  | ok kind =>
      simp only
      split
      · exact .inl ⟨_, s.1, rfl⟩
      · simp only [Host.recording]
        rcases host.start ⟨r.started + 1, kind, doc⟩ s.1 with ⟨e | _, kept⟩
        · exact .inl ⟨_, kept, rfl⟩
        · exact .inr ⟨_, kept, rfl, rfl⟩

end Registry

section Balance

variable {σ : Type} {inHand left : Option Instance} {w w' : World (σ × Diary)}

-- Reactors are numbered as they are started, and each of them is in hand, runs, or was stopped.
structure World.Balanced (inHand : Option Instance) (w : World (σ × Diary)) : Prop where
  builtIn : w.registry.get? Registry.immutableId = some .immutable
  numbered : w.diary.started.map (·.number) = List.range' 1 w.registry.started
  books : (↑w.diary.started : Multiset Instance) = ↑inHand.toList + w.registry.stock w.diary

namespace World.Balanced

theorem sameBooks (h : w.Balanced inHand) (hsame : w.SameBooks w') : w'.Balanced inHand := by
  obtain ⟨hregistry, hdiary⟩ := hsame
  constructor
  · rw [hregistry]
    exact h.builtIn
  · rw [hregistry, hdiary]
    exact h.numbered
  · rw [hregistry, hdiary]
    exact h.books

-- What is in hand is taken into stock, or stays in hand.
theorem settles {taken : Option Instance} (h : w.Balanced inHand)
    (hsettles : Registry.Settles taken w.registry w.diary w'.registry w'.diary)
    (hhand : inHand.toList = left.toList ++ taken.toList) : w'.Balanced left where
  builtIn := hsettles.builtIn h.builtIn
  numbered := by
    rw [hsettles.started, hsettles.number]
    exact h.numbered
  books := by
    rw [hsettles.started, hsettles.stock, h.books, hhand, ← Multiset.coe_add, add_assoc]

theorem prepared (h : w.Balanced none) {inst : Instance}
    (hnumber : inst.number = w.registry.started + 1)
    (hregistry : w'.registry = { w.registry with started := w.registry.started + 1 })
    (hdiary : w'.diary = w.diary.start inst) : w'.Balanced (some inst) where
  builtIn := by
    rw [hregistry]
    exact h.builtIn
  numbered := by
    rw [hregistry, hdiary, List.range'_1_concat, ← h.numbered, Nat.add_comm, ← hnumber]
    exact List.map_append ..
  books := by
    rw [hregistry, hdiary]
    show (↑(w.diary.started ++ [inst]) : Multiset Instance) =
      ↑[inst] + w.registry.stock w.diary
    rw [← Multiset.coe_add, h.books, add_comm]
    simp

end World.Balanced

-- Started reactors can be told apart by their numbers. Each of them runs under a single id and was
-- never stopped, or does not run and was stopped once; and there are no others that run or were
-- stopped.
structure World.Accounted (w : World (σ × Diary)) : Prop where
  distinct : (w.diary.started.map (·.number)).Nodup
  runs : ∀ id inst, w.registry.get? id = some (.started inst) → inst ∈ w.diary.started
  stopped : ∀ inst ∈ w.diary.stopped, inst ∈ w.diary.started
  each : ∀ inst ∈ w.diary.started,
    ((∃! id, w.registry.get? id = some (.started inst)) ∧ w.diary.stops inst = 0) ∨
      ((∀ id, w.registry.get? id ≠ some (.started inst)) ∧ w.diary.stops inst = 1)

-- With nothing in hand, everything is accounted for.
theorem World.Balanced.accounted (h : w.Balanced none) : w.Accounted := by
  have hperm : w.diary.started.Perm
      (Registry.instances w.registry.running ++ w.diary.stopped) := by
    rw [← Multiset.coe_eq_coe, ← Multiset.coe_add, h.books]
    exact zero_add _
  have hdistinct : (w.diary.started.map (·.number)).Nodup := by
    rw [h.numbered]
    exact List.nodup_range' ..
  have hnumbers := (hperm.map (·.number)).nodup_iff.mp hdistinct
  have hinstances := hnumbers.of_map.of_append_left
  refine ⟨hdistinct, fun id inst hrunning => ?_, fun inst hstopped => ?_, fun inst hstarted => ?_⟩
  · have hm := Registry.mem_instances_iff.mpr ⟨id, hrunning⟩
    exact hperm.mem_iff.mpr (List.mem_append_left _ hm)
  · exact hperm.mem_iff.mpr (List.mem_append_right _ hstopped)
  · have hm := hperm.mem_iff.mp hstarted
    -- a number that is given out is found once, among those that run or those that were stopped
    have hone := List.count_eq_one_of_mem hnumbers (List.mem_map_of_mem hm)
    rw [List.map_append, List.count_append] at hone
    rcases List.mem_append.mp hm with hrunning | hstopped
    · have hpositive := List.count_pos_iff.mpr (List.mem_map_of_mem (f := (·.number)) hrunning)
      obtain ⟨id, hid⟩ := Registry.mem_instances_iff.mp hrunning
      refine .inl ⟨⟨id, hid, fun other hother => ?_⟩, ?_⟩
      · exact Registry.eq_of_nodup_instances hinstances hid hother
      · rw [Diary.stops]
        omega
    · have hpositive := List.count_pos_iff.mpr (List.mem_map_of_mem (f := (·.number)) hstopped)
      refine .inr ⟨fun id hid => ?_, ?_⟩
      · have hrunning := List.count_pos_iff.mpr (List.mem_map_of_mem (f := (·.number))
          (Registry.mem_instances_iff.mpr ⟨id, hid⟩))
        omega
      · rw [Diary.stops]
        omega

end Balance

end DocStore
