import DocStore.Proofs.Storage.Listing
import DocStore.Proofs.Storage.Plain

-- A single-writer store serves clients who take turns as a plain map does.
namespace DocStore

namespace Plain

variable {p : Plain} {n : Nat} {c : Client}

-- An iterator yields some pairs, one after the other.
def Follows (map : SortedMap Bytes Bytes) (it : Iter) (left : List Pair) : Prop :=
  it.Follows map ⟨left, false⟩

-- The handle of a client in a single-writer store.
def Client.single (c : Client) : Handle :=
  if c.isWriter = true then .singleWrite c.writes c.isOpen else .singleRead (!c.isOpen)

theorem Client.single_of_writing (hw : c.Writing) : c.single = .singleWrite c.writes true := by
  rw [single, if_pos hw.2, hw.1]

-- Iterators are followed as long as nothing is written to the map.
structure Client.Sits (map : SortedMap Bytes Bytes) (version : Nat) (seat : Seat) (c : Client) :
    Prop where
  handle : seat.handle = c.single
  past : c.version ≤ version
  iters : c.isOpen = true → c.version = version → List.Forall₂ (Follows map) seat.iters c.iters

theorem Client.Sits.committed {seat : Seat} (h : c.Sits p.map p.version seat) (n : Nat)
    (writes : SortedMap Bytes (Option Bytes)) :
    c.Sits (p.commit n writes).map (p.commit n writes).version seat := by
  obtain ⟨hhandle, hpast, hiters⟩ := h
  rcases p.commit_cases n writes with ⟨-, hmap, hversion⟩ | ⟨-, hversion⟩
  · rw [hmap, hversion]
    exact ⟨hhandle, hpast, hiters⟩
  · rw [hversion]
    exact ⟨hhandle, by omega, fun _ hnew => by omega⟩

-- A single-writer store has the map, and its clients have their handles.
structure Embeds (p : Plain) (s : Session) : Prop where
  kv : ∃ busy, s.kv = .single ⟨p.map, busy⟩ ∧ (busy = true → p.Busy)
  seats : List.Forall₂ (fun seat c => c.Sits p.map p.version seat) s.seats p.clients

-- A handle sees the map as it is.
theorem Client.Orderly.single_sees (h : c.Orderly p) (hopen : c.isOpen = true) (busy : Bool) :
    (Kv.single ⟨p.map, busy⟩).Sees c.single p.map c.writes := by
  cases hwriter : c.isWriter with
  | true =>
      rw [single_of_writing ⟨hopen, hwriter⟩]
      exact ⟨rfl, rfl, fun _ => rfl, fun _ _ => rfl⟩
  | false =>
      rw [h.readers hwriter, single, hwriter, hopen]
      exact ⟨rfl, rfl, fun _ => rfl, fun _ _ => rfl⟩

namespace Embeds

variable {s : Session}

theorem start : Plain.start.Embeds (Session.start .embedded) :=
  ⟨⟨false, rfl, fun h => by cases h⟩, .nil⟩

variable {busy : Bool} {seats : List Seat} {seat : Seat}

-- A handle that opens is the last one.
theorem enter (h : p.Embeds ⟨.single ⟨p.map, busy⟩, seats⟩) (isWriter : Bool) {handle : Handle}
    (hhandle : handle = if isWriter then .singleWrite SortedMap.empty true else .singleRead false) :
    List.Forall₂ (fun seat c => c.Sits p.map p.version seat) (seats ++ [⟨handle, []⟩])
      (p.enter isWriter).clients := by
  refine forall₂_concat h.seats ⟨?_, Nat.le_refl _, fun _ _ => .nil⟩
  rw [hhandle]
  cases isWriter <;> rfl

theorem openWriter (h : p.Embeds ⟨.single ⟨p.map, busy⟩, seats⟩)
    (hfree : ¬p.Busy) (stop : Error) {call : Call}
    (hcall : p.exec call = (.opened (.ok p.clients.length), p.enter true))
    (hexec : Session.exec ⟨.single ⟨p.map, busy⟩, seats⟩ call =
      Session.receive ⟨.single ⟨p.map, busy⟩, seats⟩
        ((Kv.single ⟨p.map, busy⟩).write .go stop)) :
    (Session.exec ⟨.single ⟨p.map, busy⟩, seats⟩ call).1 = (p.exec call).1 ∧
      (p.exec call).2.Embeds (Session.exec ⟨.single ⟨p.map, busy⟩, seats⟩ call).2 := by
  obtain ⟨busy', hkv, hbusy⟩ := h.kv
  obtain rfl : busy = busy' := by
    cases hkv
    rfl
  have hidle : busy = false := by
    by_contra hne
    exact hfree (hbusy (by simpa using hne))
  subst hidle
  have hlast : (p.enter true).Busy :=
    ⟨_, List.mem_append_right _ (List.mem_singleton_self _), rfl, rfl⟩
  have hlength : seats.length = p.clients.length := h.seats.length_eq
  rw [hexec, hcall, ← hlength]
  exact ⟨rfl, ⟨true, rfl, fun _ => hlast⟩, h.enter true rfl⟩

-- Iterators come and go. Those of a reader that the map was written to since are nobody's concern.
theorem withIters (h : p.Embeds ⟨.single ⟨p.map, busy⟩, seats⟩) (hc : p.clients[n]? = some c)
    (hsits : c.Sits p.map p.version seat) (iters : List Iter) (f : Client → List (List Pair))
    (hf : c.isOpen = true → c.version = p.version →
      List.Forall₂ (Follows p.map) iters (f c)) :
    (p.modify n (fun c => { c with iters := f c })).Embeds
      ⟨.single ⟨p.map, busy⟩, seats.set n ⟨seat.handle, iters⟩⟩ := by
  obtain ⟨busy', hkv, hbusy⟩ := h.kv
  refine ⟨⟨busy', hkv, fun hb => ?_⟩, forall₂_set_modify_of h.seats hc ?_⟩
  · exact (hbusy hb).modify (fun _ _ hw => hw)
  · exact ⟨hsits.handle, hsits.past, hf⟩

theorem step_pull (h : p.Embeds ⟨.single ⟨p.map, busy⟩, seats⟩) (hp : p.Orderly) (i : Nat)
    (hc : p.clients[n]? = some c) (hopen : c.isOpen = true) :
    (c.version = p.version → (Session.exec ⟨.single ⟨p.map, busy⟩, seats⟩ (.pull n i .go)).1 =
        (p.serve n c (.pull n i .go)).1) ∧
      (p.serve n c (.pull n i .go)).2.Embeds
        (Session.exec ⟨.single ⟨p.map, busy⟩, seats⟩ (.pull n i .go)).2 := by
  obtain ⟨seat, hn, hsits⟩ := forall₂_getElem? h.seats hc
  have hsees := (hp.clients n c hc).single_sees hopen busy
  cases hi : seat.iters[i]? with
  | none =>
      simp only [Session.exec, hn, hi]
      have hseats : seats.set n ⟨seat.handle, seat.iters⟩ = seats := by
        obtain ⟨hlt, rfl⟩ := List.getElem?_eq_some_iff.mp hn
        exact List.set_getElem_self hlt
      have hnone (hversion : c.version = p.version) : c.iters.length ≤ i := by
        rw [← (hsits.iters hopen hversion).length_eq]
        exact List.getElem?_eq_none_iff.mp hi
      refine ⟨fun hversion => ?_, ?_⟩
      · have hleft := List.getElem?_eq_none_iff.mpr (hnone hversion)
        simp only [serve, hleft]
      · have hkept := h.withIters hc hsits seat.iters (fun c => c.iters.modify i List.tail) ?_
        · rw [hseats] at hkept
          exact hkept
        · intro _ hversion
          rw [List.modify_eq_self (hnone hversion)]
          exact hsits.iters hopen hversion
  | some it =>
      have hpull (hversion : c.version = p.version) : ∃ left, c.iters[i]? = some left ∧
          ((Kv.single ⟨p.map, busy⟩).pull seat.handle .go it).1 = left.head?.map .ok ∧
          Follows p.map ((Kv.single ⟨p.map, busy⟩).pull seat.handle .go it).2 left.tail := by
        obtain ⟨left, hleft, hfollows⟩ := forall₂_getElem?_left (hsits.iters hopen hversion) hi
        rw [hsits.handle]
        obtain ⟨hadmits, hnext⟩ := hsees.pull .go hfollows
        obtain ⟨hitem, hadvance⟩ := Prospect.eq_of_admits hadmits
        rw [hadvance] at hnext
        exact ⟨left, hleft, hitem, hnext⟩
      simp only [Session.exec, hn, hi]
      refine ⟨fun hversion => ?_, h.withIters hc hsits _ _ (fun _ hversion => ?_)⟩
      · obtain ⟨left, hleft, hitem, -⟩ := hpull hversion
        simp only [serve, hleft, hitem]
      · obtain ⟨left, hleft, -, hnext⟩ := hpull hversion
        exact forall₂_set_modify_of (hsits.iters hopen hversion) hleft hnext

-- When a writer has ended, there is none.
theorem endWriter (h : p.Embeds ⟨.single ⟨p.map, busy⟩, seats⟩) (hp : p.Orderly)
    (hc : p.clients[n]? = some c) (hw : c.Writing) :
    List.Forall₂ (fun seat c => c.Sits p.map p.version seat)
      (seats.set n ⟨.singleWrite SortedMap.empty false, []⟩)
      (p.modify n Client.closed).clients := by
  have hpast := (hp.clients n c hc).past
  refine forall₂_set_modify_of h.seats hc ⟨?_, hpast, fun hopen => by cases hopen⟩
  rw [Client.single, if_pos (show c.closed.isWriter = true from hw.2)]
  rfl

theorem step (h : p.Embeds s) (hp : p.Orderly) {call : Call} (hcall : p.Permits call) :
    (p.Timely call → (s.exec call).1 = (p.exec call).1) ∧
      (p.exec call).2.Embeds (s.exec call).2 := by
  obtain ⟨_, seats⟩ := s
  have hs := h
  obtain ⟨⟨busy, rfl, hbusy⟩, hseats⟩ := h
  cases hcall with
  | read =>
      have hlength : seats.length = p.clients.length := hseats.length_eq
      refine ⟨fun _ => ?_, ⟨busy, rfl, fun hb => (hbusy hb).enter false⟩, hs.enter false rfl⟩
      rw [exec, ← hlength]
      rfl
  | write stop hfree =>
      exact (hs.openWriter hfree stop rfl rfl).imp_left (fun hanswer _ => hanswer)
  | writeExclusive stop keys hfree =>
      exact (hs.openWriter hfree stop rfl rfl).imp_left (fun hanswer _ => hanswer)
  | get n key c hc hopen =>
      obtain ⟨seat, hn, hsits⟩ := forall₂_getElem? hseats hc
      have hsees := (hp.clients n c hc).single_sees hopen busy
      rw [exec_eq rfl hc]
      simp only [Session.exec, hn, hsits.handle, hsees.get]
      exact ⟨fun _ => rfl, hs⟩
  | iter n range c hc hopen =>
      obtain ⟨seat, hn, hsits⟩ := forall₂_getElem? hseats hc
      have hsees := (hp.clients n c hc).single_sees hopen busy
      rw [exec_eq rfl hc]
      simp only [Session.exec, hn]
      refine ⟨fun _ => rfl, hs.withIters hc hsits _ _ (fun _ hversion => ?_)⟩
      rw [hsits.handle]
      exact forall₂_concat (hsits.iters hopen hversion) (hsees.iter range)
  | pull n i c hc hopen =>
      obtain ⟨hanswer, hembeds⟩ := hs.step_pull hp i hc hopen
      rw [exec_eq rfl hc]
      refine ⟨fun htimely => hanswer ?_, hembeds⟩
      rcases (timely_iff rfl hc).mp htimely with hwriter | hversion
      · exact (hp.clients n c hc).working ⟨hopen, hwriter⟩
      · exact hversion
  | buffer n key value c hc hw =>
      obtain ⟨seat, hn, hsits⟩ := forall₂_getElem? hseats hc
      have hhandle := hsits.handle.trans (Client.single_of_writing hw)
      rw [exec_eq rfl hc]
      simp only [Session.exec, hn, hhandle, Kv.buffer, ite_true]
      refine ⟨fun _ => rfl, ⟨busy, rfl, fun hb => ?_⟩, ?_⟩
      · exact (hbusy hb).modify (fun _ _ hw => hw)
      · refine forall₂_set_modify_of hseats hc ⟨?_, hsits.past, fun _ _ => .nil⟩
        exact (Client.single_of_writing (c := { c with
          writes := c.writes.insert key value, iters := [] }) hw).symm
  | commit n c hc hw =>
      obtain ⟨seat, hn, hsits⟩ := forall₂_getElem? hseats hc
      have hhandle := hsits.handle.trans (Client.single_of_writing hw)
      rw [exec_eq rfl hc]
      simp only [Session.exec, hn, hhandle]
      refine ⟨fun _ => rfl, ⟨false, rfl, fun hb => by cases hb⟩, ?_⟩
      exact (hs.endWriter hp hc hw).imp (fun _ _ hsits => hsits.committed n c.writes)
  | close n c hc hopen =>
      obtain ⟨seat, hn, hsits⟩ := forall₂_getElem? hseats hc
      rw [exec_eq rfl hc]
      by_cases hw : c.Writing
      · have hhandle := hsits.handle.trans (Client.single_of_writing hw)
        simp only [Session.exec, hn, hhandle, Kv.close]
        exact ⟨fun _ => rfl, ⟨false, rfl, fun hb => by cases hb⟩, hs.endWriter hp hc hw⟩
      · have hreader : c.isWriter = false := by
          by_contra hwriter
          exact hw ⟨hopen, by simpa using hwriter⟩
        have hhandle : seat.handle = .singleRead (!c.isOpen) := by
          rw [hsits.handle, Client.single, hreader]
          rfl
        simp only [Session.exec, hn, hhandle, Kv.close]
        refine ⟨fun _ => rfl, ⟨busy, rfl, fun hb => (hbusy hb).modify (fun c' hc' hw' => ?_)⟩, ?_⟩
        · rw [hc, Option.some.injEq] at hc'
          exact absurd (hc' ▸ hw') hw
        · refine forall₂_set_modify_of hseats hc ⟨?_, hsits.past, fun hopen => by cases hopen⟩
          rw [Client.single, show c.closed.isWriter = false from hreader]
          rfl

end Embeds

theorem Serial.embeds {calls : List Call} (h : Serial calls) :
    (run calls).Embeds (Course.run .embedded calls).session := by
  induction h with
  | start => exact .start
  | call hserial hcall ih =>
      rw [run_append, Course.run_append]
      exact (ih.step hserial.orderly hcall).2

end Plain

end DocStore
