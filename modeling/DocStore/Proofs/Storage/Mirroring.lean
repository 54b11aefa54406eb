import DocStore.Proofs.Storage.FirstCommitter
import DocStore.Proofs.Storage.Plain

-- A multi-version store serves clients who take turns as a plain map does.
namespace DocStore

namespace Plain

variable {p : Plain} {n : Nat} {c : Client}

-- What is known of a client of a multi-version store to those who never forget.
structure Client.Mirrors (log : CommitLog) (c : Client) (o : Outlook) : Prop where
  isWriter : o.isWriter = c.isWriter
  isOpen : o.isOpen = c.isOpen
  base : o.base = c.version
  past : c.version ≤ log.length
  opened : log.mapAt c.version = c.opened
  writes : c.isOpen = true → o.writes = c.writes
  iters : c.isOpen = true → c.version = log.length →
    List.Forall₂ (fun prospect left => prospect = ⟨left, false⟩) o.iters c.iters

theorem Client.Mirrors.append {log : CommitLog} {o : Outlook} (h : c.Mirrors log o)
    (commit : Commit) : c.Mirrors (log ++ [commit]) o where
  isWriter := h.isWriter
  isOpen := h.isOpen
  base := h.base
  past := by
    rw [List.length_append]
    exact Nat.le_add_right_of_le h.past
  opened := by rw [CommitLog.mapAt_append commit h.past, h.opened]
  writes := h.writes
  iters := by
    intro _ hversion
    have hpast := h.past
    rw [List.length_append, List.length_singleton] at hversion
    omega

-- The commits there ever were have made the map, and the clients have opened what they see.
structure Mirrors (p : Plain) (h : Chronicle) : Prop where
  map : h.log.current = p.map
  version : h.log.length = p.version
  clients : List.Forall₂ (Client.Mirrors h.log) p.clients h.outlooks

theorem Client.Mirrors.writing {log : CommitLog} {o : Outlook} (h : c.Mirrors log o) :
    o.Writing ↔ c.Writing := by
  rw [Outlook.Writing, Client.Writing, h.isWriter, h.isOpen]

namespace Mirrors

variable {h : Chronicle} {call : Call} {answer : Answer}

theorem start : Plain.start.Mirrors Chronicle.start := ⟨rfl, rfl, .nil⟩

-- The version of a handle is the map, unless that was written to.
theorem finds (hm : p.Mirrors h) {o : Outlook} (hmirrors : c.Mirrors h.log o)
    (hopen : c.isOpen = true) (hversion : c.version = p.version) :
    o.map h.log = c.seen p.map := by
  rw [Outlook.map, hmirrors.base, hversion, ← hm.version, hmirrors.writes hopen, ← hm.map]
  rfl

theorem enter (hm : p.Mirrors h) (isWriter : Bool) (keys : List Bytes) :
    (p.enter isWriter).Mirrors (h.enter isWriter keys) where
  map := hm.map
  version := hm.version
  clients := by
    refine forall₂_concat hm.clients ⟨rfl, rfl, hm.version, Nat.le_of_eq hm.version.symm, ?_,
      fun _ => rfl, fun _ _ => .nil⟩
    rw [← hm.map, CommitLog.current, hm.version]

theorem withIters (hm : p.Mirrors h) (hc : p.clients[n]? = some c)
    {f : Client → List (List Pair)} {g : Outlook → List Prospect}
    (hfg : ∀ o, c.Mirrors h.log o → c.isOpen = true → c.version = p.version →
      List.Forall₂ (fun prospect left => prospect = ⟨left, false⟩) (g o) (f c)) :
    (p.modify n (fun c => { c with iters := f c })).Mirrors
      (h.modify n (fun o => { o with iters := g o })) where
  map := hm.map
  version := hm.version
  clients := by
    refine forall₂_modify hm.clients (fun c' o hc' _ hmirrors => ?_)
    rw [hc, Option.some.injEq] at hc'
    subst hc'
    have hiters := hfg o hmirrors
    obtain ⟨hwriter, hopen, hbase, hpast, hopened, hwrites, -⟩ := hmirrors
    exact ⟨hwriter, hopen, hbase, hpast, hopened, hwrites, fun hopen hversion =>
      hiters hopen (hversion.trans hm.version)⟩

theorem close (hm : p.Mirrors h) (n : Nat) :
    (p.modify n Client.closed).Mirrors (h.modify n Outlook.closed) where
  map := hm.map
  version := hm.version
  clients := forall₂_modify hm.clients (fun _ _ _ _ hmirrors =>
    ⟨hmirrors.isWriter, rfl, hmirrors.base, hmirrors.past, hmirrors.opened,
      (fun hopen => by cases hopen), (fun hopen => by cases hopen)⟩)

theorem buffer (hm : p.Mirrors h) (hc : p.clients[n]? = some c) (hw : c.Writing) (key : Bytes)
    (value : Option Bytes) :
    (p.modify n (fun c => { c with writes := c.writes.insert key value, iters := [] })).Mirrors
      (h.modify n (fun o => o.write key value)) where
  map := hm.map
  version := hm.version
  clients := by
    refine forall₂_modify hm.clients (fun c' o hc' _ hmirrors => ?_)
    rw [hc, Option.some.injEq] at hc'
    subst hc'
    have hwrites := hmirrors.writes hw.1
    rw [Outlook.write, if_pos (hmirrors.writing.mpr hw)]
    exact ⟨hmirrors.isWriter, hmirrors.isOpen, hmirrors.base, hmirrors.past, hmirrors.opened,
      fun _ => by rw [hwrites], fun _ _ => .nil⟩

theorem commit (hm : p.Mirrors h) (hc : p.clients[n]? = some c) (hw : c.Writing) :
    (p.commit n c.writes).Mirrors (h.record (.commit n .go) (.done (.ok ()))) := by
  obtain ⟨o, ho, hmirrors⟩ := forall₂_getElem?_left hm.clients hc
  have hwrites := hmirrors.writes hw.1
  have hwriting := hmirrors.writing.mpr hw
  have hclosed := (hm.close n).clients
  simp only [Chronicle.record, h.modify_finish ho hwriting]
  rcases p.commit_cases n c.writes with ⟨hsize, hmap, hversion⟩ | ⟨hsize, hversion⟩
  · have hnone : h.committed? n (.done (.ok ())) = none := by
      simp [Chronicle.committed?, ho, hwrites, hsize]
    rw [hnone, Option.toList_none, List.append_nil]
    exact ⟨hm.map.trans hmap.symm, hm.version.trans hversion.symm, hclosed⟩
  · have hsome : h.committed? n (.done (.ok ())) = some ⟨n, c.writes⟩ := by
      simp [Chronicle.committed?, ho, hwriting, hwrites, hsize]
    rw [hsome, Option.toList_some]
    refine ⟨?_, ?_, hclosed.imp (fun _ _ hmirrors => hmirrors.append ⟨n, c.writes⟩)⟩
    · rw [CommitLog.current_append, hm.map]
      rfl
    · rw [List.length_append, hm.version, hversion]
      rfl

theorem pull (hm : p.Mirrors h) (i : Nat) (hc : p.clients[n]? = some c)
    (hanswer : c.version = p.version → answer = (p.serve n c (.pull n i .go)).1) :
    (p.serve n c (.pull n i .go)).2.Mirrors (h.record (.pull n i .go) answer) := by
  -- what is left of the pairs does not matter if the map was written to
  have hleft (item : Option (Except Error Pair))
      (hitem : c.version = p.version → ∀ left, c.iters[i]? = some left →
        item = left.head?.map .ok) :
      (p.serve n c (.pull n i .go)).2.Mirrors (h.record (.pull n i .go) (.item item)) := by
    refine hm.withIters hc (fun o hmirrors hopen hversion => ?_)
    refine forall₂_modify (hmirrors.iters hopen (hversion.trans hm.version.symm)) ?_
    rintro prospect left - hleft rfl
    rw [hitem hversion left hleft]
    cases left <;> simp [Prospect.advance]
  have hnothing (hnone : c.version = p.version → c.iters[i]? = none) :
      (p.serve n c (.pull n i .go)).2.Mirrors h := by
    have hkept : (p.serve n c (.pull n i .go)).2.Mirrors (h.modify n id) := by
      refine hm.withIters (g := Outlook.iters) hc (fun o hmirrors hopen hversion => ?_)
      rw [List.modify_eq_self (List.getElem?_eq_none_iff.mp (hnone hversion))]
      exact hmirrors.iters hopen (hversion.trans hm.version.symm)
    rwa [Chronicle.modify, List.modify_id] at hkept
  cases answer with
  | item item =>
      refine hleft item (fun hversion left hleft => ?_)
      have hitem := hanswer hversion
      simp only [serve, hleft, Answer.item.injEq] at hitem
      exact hitem
  | opened | found | done | nothing =>
      refine hnothing (fun hversion => ?_)
      have hnone := hanswer hversion
      cases hi : c.iters[i]? with
      | none => rfl
      | some left => simp [serve, hi] at hnone

theorem record (hm : p.Mirrors h) (hcall : p.Permits call)
    (hanswer : p.Timely call → answer = (p.exec call).1) :
    (p.exec call).2.Mirrors (h.record call answer) := by
  cases hcall with
  | read =>
      rw [hanswer (timely_of_seat? rfl)]
      exact hm.enter false []
  | write stop hfree =>
      rw [hanswer (timely_of_seat? rfl)]
      exact hm.enter true []
  | writeExclusive stop keys hfree =>
      rw [hanswer (timely_of_seat? rfl)]
      exact hm.enter true keys
  | get n key c hc hopen =>
      rw [exec_eq rfl hc]
      exact hm
  | iter n range c hc hopen =>
      rw [exec_eq rfl hc]
      refine hm.withIters hc (fun o hmirrors hopen hversion => ?_)
      refine forall₂_concat (hmirrors.iters hopen (hversion.trans hm.version.symm)) ?_
      rw [if_pos (hmirrors.isOpen.trans hopen), hm.finds hmirrors hopen hversion]
  | pull n i c hc hopen =>
      rw [exec_eq rfl hc] at hanswer ⊢
      exact hm.pull i hc (fun hversion => hanswer ((timely_iff rfl hc).mpr (.inr hversion)))
  | buffer n key value c hc hw =>
      rw [exec_eq rfl hc]
      exact hm.buffer hc hw key value
  | commit n c hc hw =>
      rw [exec_eq rfl hc] at hanswer ⊢
      rw [hanswer ((timely_iff rfl hc).mpr (.inl hw.2))]
      exact hm.commit hc hw
  | close n c hc hopen =>
      rw [exec_eq rfl hc]
      exact hm.close n

end Mirrors

variable {h : Chronicle} {kv : MultiVersion} {seats : List Seat}

-- Whoever asks for keys while nobody is at work is granted them.
theorem granted_of_idle (hi : Isolated kv seats h)
    (hidle : ∀ (n : Nat) o, h.outlooks[n]? = some o → ¬o.Writing) (stop : Error)
    (keys : List Bytes) :
    (Session.exec ⟨.multi kv, seats⟩ (.writeExclusive .go stop keys)).1 =
      .opened (.ok seats.length) := by
  have hfree : ∀ key, kv.manager.intents.owner? key = none := by
    intro key
    by_contra howned
    obtain ⟨owner, howner⟩ := Option.ne_none_iff_exists'.mp howned
    obtain ⟨n, -, o, -, -, ho, hw, -⟩ := hi.reserved_of_owner howner
    exact hidle n o ho hw
  obtain ⟨taken, intents, hacquire⟩ :=
    IntentTable.acquire_of_free kv.manager.nextId keys hfree
  simp only [Session.exec, Kv.writeExclusive, TxnManager.beginExclusive, Signal.check, hacquire,
    Session.receive]

-- A writer that is alone commits.
theorem commit_of_alone (hi : Isolated kv seats h) {o : Outlook} (ho : h.outlooks[n]? = some o)
    (hw : o.Writing) (hbase : o.base = h.log.length)
    (halone : ∀ (m : Nat) other, h.outlooks[m]? = some other → other.Writing → m = n) :
    (Session.exec ⟨.multi kv, seats⟩ (.commit n .go)).1 = .done (.ok ()) := by
  rcases hi.commit_answer ho hw with ⟨hanswer, -⟩ | ⟨key, -, hcontested, -⟩
  · exact hanswer
  · rcases hcontested with ⟨i, commit, hcommit, hle, -⟩ | ⟨m, other, hne, hother, hw', -⟩
    · obtain ⟨hlt, -⟩ := List.getElem?_eq_some_iff.mp hcommit
      omega
    · exact absurd (halone m other hother hw') hne

theorem Mirrors.answer_pull (hm : p.Mirrors h) (hi : Isolated kv seats h) (i : Nat)
    (hc : p.clients[n]? = some c) (hopen : c.isOpen = true) (hversion : c.version = p.version) :
    (Session.exec ⟨.multi kv, seats⟩ (.pull n i .go)).1 = (p.serve n c (.pull n i .go)).1 := by
  obtain ⟨o, ho, hmirrors⟩ := forall₂_getElem?_left hm.clients hc
  obtain ⟨seat, hn, hshows⟩ := forall₂_getElem? hi.shows ho
  have hopen' : o.isOpen = true := hmirrors.isOpen.trans hopen
  have hiters := hmirrors.iters hopen (hversion.trans hm.version.symm)
  cases hleft : c.iters[i]? with
  | none =>
      have hnone : seat.iters[i]? = none := by
        rw [List.getElem?_eq_none_iff] at hleft ⊢
        rw [(hshows.iters hopen').length_eq, hiters.length_eq]
        exact hleft
      simp only [Session.exec, hn, hnone, serve, hleft]
  | some left =>
      obtain ⟨prospect, hprospect, rfl⟩ := forall₂_getElem? hiters hleft
      obtain ⟨item, hitem, hadmitted⟩ := hi.admits (.pull n i .go) o _ ho hopen' hprospect
      rw [hitem, (Prospect.eq_of_admits hadmitted).1]
      simp only [serve, hleft]

-- As long as the map was not written to, the versions of the handles are the map.
theorem Mirrors.answer (hm : p.Mirrors h) (hp : p.Orderly) (hi : Isolated kv seats h) {call : Call}
    (hcall : p.Permits call) (htimely : p.Timely call) :
    (Session.exec ⟨.multi kv, seats⟩ call).1 = (p.exec call).1 := by
  have hlength : h.outlooks.length = p.clients.length := hm.clients.length_eq.symm
  have hidle (hfree : ¬p.Busy) : ∀ (n : Nat) o, h.outlooks[n]? = some o → ¬o.Writing := by
    intro n o ho hw
    obtain ⟨c, hc, hmirrors⟩ := forall₂_getElem? hm.clients ho
    exact hfree ⟨c, List.mem_of_getElem? hc, hmirrors.writing.mp hw⟩
  have hadmits := hi.admits call
  cases hcall with
  | read =>
      rw [show _ = _ from hadmits, hlength]
      rfl
  | write stop hfree =>
      rw [show _ = _ from hadmits, hlength]
      rfl
  | writeExclusive stop keys hfree =>
      rw [granted_of_idle hi (hidle hfree), hi.shows.length_eq, hlength]
      rfl
  | get n key c hc hopen =>
      obtain ⟨o, ho, hmirrors⟩ := forall₂_getElem?_left hm.clients hc
      have hversion := (hp.clients n c hc).version_eq hopen ((timely_iff rfl hc).mp htimely)
      rw [hadmits o ho (hmirrors.isOpen.trans hopen), hm.finds hmirrors hopen hversion,
        exec_eq rfl hc]
      rfl
  | iter n range c hc hopen =>
      obtain ⟨o, ho, -⟩ := forall₂_getElem?_left hm.clients hc
      obtain ⟨seat, hn, -⟩ := forall₂_getElem? hi.shows ho
      rw [exec_eq rfl hc]
      simp only [Session.exec, hn]
      rfl
  | pull n i c hc hopen =>
      have hversion := (hp.clients n c hc).version_eq hopen ((timely_iff rfl hc).mp htimely)
      rw [exec_eq rfl hc]
      exact hm.answer_pull hi i hc hopen hversion
  | buffer n key value c hc hw =>
      obtain ⟨o, ho, hmirrors⟩ := forall₂_getElem?_left hm.clients hc
      rw [hadmits o ho (hmirrors.writing.mpr hw), exec_eq rfl hc]
      rfl
  | commit n c hc hw =>
      obtain ⟨o, ho, hmirrors⟩ := forall₂_getElem?_left hm.clients hc
      have hbase : o.base = h.log.length := by
        rw [hmirrors.base, (hp.clients n c hc).working hw, hm.version]
      rw [exec_eq rfl hc]
      refine commit_of_alone hi ho (hmirrors.writing.mpr hw) hbase (fun m other hother hw' => ?_)
      obtain ⟨c', hc', hmirrors'⟩ := forall₂_getElem? hm.clients hother
      exact hp.alone m n c' c hc' hc (hmirrors'.writing.mp hw') hw
  | close n c hc hopen =>
      obtain ⟨o, ho, -⟩ := forall₂_getElem?_left hm.clients hc
      obtain ⟨seat, hn, -⟩ := forall₂_getElem? hi.shows ho
      rw [exec_eq rfl hc]
      simp only [Session.exec, hn]
      rfl

theorem Serial.mirrors {calls : List Call} (h : Serial calls) :
    (run calls).Mirrors (Course.run .mvcc calls).chronicle := by
  induction h with
  | start => exact .start
  | @call calls call hserial hcall ih =>
      obtain ⟨kv, hkv, hi⟩ := Course.isolated_run calls
      rw [run_append, Course.run_append]
      refine ih.record hcall (fun htimely => ?_)
      rw [← ih.answer hserial.orderly hi hcall htimely, ← hkv]

end Plain

end DocStore
