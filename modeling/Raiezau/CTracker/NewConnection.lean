import Raiezau.CTracker.PollRun
import Raiezau.CTracker.State

/-!
# NewConnection — what `handle_new_connection` makes of a failure, and of an address it knows

A failure of `accept` or of `getpeername` is handed on in three ways: `accept_connection` returns -1,
`client_get_or_create` returns NULL for it, and `add_new_client_to_fds` follows the pointer that it is given.  A
connection from an address that the table of clients has an entry for gets the client of that entry, and its slot
the socket of that client.
-/

namespace Raiezau
namespace CTracker
namespace Network
namespace NewConnection

open Memory CUtil Machine

/-! ## Model -/

/-- `accept_connection`, for what `accept` returns. -/
def acceptConnection (acceptS : Int) : Int := if acceptS < 0 then -1 else acceptS

/-- The address at the other end, if it is still there.  What is no descriptor has none. -/
def getpeername (peer : Option SockAddr) (socket : Int) : Option SockAddr := if socket < 0 then none else peer

def clientGetOrCreate (s : State) (peer : Option SockAddr) (socket : Int) : State × Option Addr :=
  match getpeername peer socket with
  | none => (s, none)
  | some addr =>
      let (s, c) := Network.clientGetOrCreate s socket (sockaddrStringify addr)
      (s, some c)

def addNewClientToFds (s : State) (t : PollTable) (c : Option Addr) : Option (State × PollTable) := do
  -- `client_inc_ref` writes through the pointer.
  let c ← c
  let s ← Network.addNewClientToFds s c
  let x ← s.heap.read c
  let t ← t.addNewClientToFds c x.socket
  some (s, t)

def handleNewConnection (s : State) (t : PollTable) (acceptS : Int) (peer : Option SockAddr) :
    Option (State × PollTable) :=
  let socket := acceptConnection acceptS
  let (s, c) := clientGetOrCreate s peer socket
  addNewClientToFds s t c

/-- A failed attempt leaves all as it was, and a connection gets a slot of its own, with its own socket. -/
def Intact (s : State) (t : PollTable) (acceptS : Int) (peer : Option SockAddr) : Prop :=
  if acceptS < 0 ∨ peer = none then handleNewConnection s t acceptS peer = some (s, t)
  else ∃ s' t', handleNewConnection s t acceptS peer = some (s', t') ∧ t'.nfds = t.nfds + 1 ∧
    (t'.fds.load t.nfds).map PollFd.fd = some acceptS

/-- The client that the table has for the address, if any, has this socket. -/
def Ours (s : State) (addr : SockAddr) (socket : Int) : Prop :=
  ∀ c, htGetEntry s.clients (sockaddrStringify addr) = some c → (s.heap.read c).map Client.socket = some socket

variable {s s' : State} {t t' : PollTable} {first : PollFd} {c : Addr} {x : Client} {addr : SockAddr}
  {peer : Option SockAddr} {acceptS socket : Int}

/-! ## Failures -/

theorem clientGetOrCreate_failed (hfail : acceptS < 0 ∨ peer = none) :
    clientGetOrCreate s peer (acceptConnection acceptS) = (s, none) := by
  have hnone : getpeername peer (acceptConnection acceptS) = none := by
    unfold getpeername acceptConnection
    rcases hfail with hneg | rfl
    · rw [if_pos hneg]
      rfl
    · exact ite_self none
  rw [clientGetOrCreate, hnone]

/-- No failure is noticed before the pointer is followed. -/
theorem handleNewConnection_failed (hfail : acceptS < 0 ∨ peer = none) :
    handleNewConnection s t acceptS peer = none := by
  unfold handleNewConnection
  dsimp only
  rw [clientGetOrCreate_failed hfail]
  rfl

/-! ## Connections -/

theorem handleNewConnection_accepted (hge : 0 ≤ acceptS) : handleNewConnection s t acceptS (some addr) =
    addNewClientToFds (Network.clientGetOrCreate s acceptS (sockaddrStringify addr)).1 t
      (some (Network.clientGetOrCreate s acceptS (sockaddrStringify addr)).2) := by
  have hnot : ¬ acceptS < 0 := Int.not_lt.2 hge
  unfold handleNewConnection clientGetOrCreate acceptConnection getpeername
  rw [if_neg hnot]
  dsimp only
  rw [if_neg hnot]

theorem addNewClientToFds_freed (hfreed : s.heap.read c = none) : addNewClientToFds s t (some c) = none := by
  unfold addNewClientToFds Network.addNewClientToFds clientIncRef
  simp only [Option.bind_eq_bind, Option.bind_some, hfreed, Option.bind_none]

/-- The state of the loop behind `add_new_client_to_fds`. -/
theorem addNewClientToFds_state (hread : s.heap.read c = some x) :
    ∃ s' y, Network.addNewClientToFds s c = some s' ∧ s'.heap.read c = some y ∧ y.socket = x.socket ∧
      s'.slots = s.slots ++ [newSlot c x.socket] := by
  have hread' : (s.modifyClient c fun x => { x with refCount := x.refCount + 1 }).heap.read c =
      some { x with refCount := x.refCount + 1 } := by
    rw [State.read_modifyClient, if_pos rfl, hread]
    rfl
  refine ⟨(s.modifyClient c fun x => { x with refCount := x.refCount + 1 }).addSlot (newSlot c x.socket), _, ?_,
    hread', rfl, rfl⟩
  unfold Network.addNewClientToFds clientIncRef
  simp only [Option.bind_eq_bind, Option.bind_some, hread, hread']
  rfl

/-- The slot is that of the client: its descriptor is the socket the client has. -/
theorem addNewClientToFds_spec (h : t.Represents first s.slots) (hread : s.heap.read c = some x) :
    if t.nfds + 1 < 2 ^ 31 then
      ∃ s' t', addNewClientToFds s t (some c) = some (s', t') ∧ s'.slots = s.slots ++ [newSlot c x.socket] ∧
        t'.Represents first s'.slots
    else addNewClientToFds s t (some c) = none := by
  obtain ⟨s', y, hadd, hread', hsocket, hslots⟩ := addNewClientToFds_state hread
  have hcall : addNewClientToFds s t (some c) = (t.addNewClientToFds c x.socket).map fun t' => (s', t') := by
    rw [addNewClientToFds]
    simp only [Option.bind_eq_bind, Option.bind_some, hadd, hread', hsocket]
    exact Option.map_eq_bind.symm
  rw [hcall]
  split
  · next hlt =>
      obtain ⟨t', htable, hrep⟩ := h.addNewClientToFds hlt c x.socket
      exact ⟨s', t', by rw [htable]; rfl, hslots, hslots ▸ hrep⟩
  · next hfull =>
      rw [PollTable.addNewClientToFds, if_pos (Nat.le_of_not_lt hfull)]
      rfl

/-- With a socket and a peer the call is the step of the loop that accepts, on the slots and on the arrays. -/
theorem handleNewConnection_eq_step (hge : 0 ≤ acceptS) : handleNewConnection s t acceptS (some addr) = (do
    let s' ← Network.handleNewConnection s acceptS (sockaddrStringify addr)
    let t' ← t.step s (.accept acceptS (sockaddrStringify addr))
    some (s', t')) := by
  rw [handleNewConnection_accepted hge]
  dsimp only [Network.handleNewConnection, PollTable.step]
  generalize Network.clientGetOrCreate s acceptS (sockaddrStringify addr) = r
  cases hread : r.1.heap.read r.2 with
  | none =>
      rw [addNewClientToFds_freed hread]
      unfold Network.addNewClientToFds clientIncRef
      simp only [Option.bind_eq_bind, hread, Option.bind_none]
  | some x =>
      obtain ⟨s', y, hadd, hread', hsocket, -⟩ := addNewClientToFds_state hread
      rw [addNewClientToFds]
      simp only [Option.bind_eq_bind, Option.bind_some, hadd, hread', hsocket]

/-- The socket of the client that a connection gets: its own where the client is new. -/
theorem socket_clientGetOrCreate (s : State) (addr : SockAddr) (socket : Int) :
    ((Network.clientGetOrCreate s socket (sockaddrStringify addr)).1.heap.read
        (Network.clientGetOrCreate s socket (sockaddrStringify addr)).2).map Client.socket = some socket ↔
      Ours s addr socket := by
  unfold Network.clientGetOrCreate Ours
  cases hkey : htGetEntry s.clients (sockaddrStringify addr) with
  | none =>
      refine iff_of_true ?_ nofun
      exact congrArg (Option.map Client.socket) (Heap.read_alloc_fresh _ _)
  | some c => exact ⟨fun hsocket d hd => Option.some.inj hd ▸ hsocket, fun hours => hours c rfl⟩

theorem slots_clientGetOrCreate (s : State) (socket : Int) (connKey : CString) :
    (Network.clientGetOrCreate s socket connKey).1.slots = s.slots := by
  unfold Network.clientGetOrCreate
  split <;> rfl

/-- The entry of a new slot. -/
theorem load_newSlot {slots : List Slot} (h : t.Represents first slots)
    (h' : t'.Represents first (slots ++ [newSlot c socket])) :
    t'.nfds = t.nfds + 1 ∧ (t'.fds.load t.nfds).map PollFd.fd = some socket := by
  have hlast : (slots ++ [newSlot c socket])[slots.length]? = some (newSlot c socket) := List.getElem?_concat_length
  refine ⟨?_, ?_⟩
  · rw [h'.nfds_eq, h.nfds_eq, List.length_append, List.length_singleton]
  · rw [h.nfds_eq, (h'.entry hlast).1]
    rfl

theorem intact_accepted_iff (h : t.Represents first s.slots) (hge : 0 ≤ acceptS) :
    Intact s t acceptS (some addr) ↔ t.nfds + 1 < 2 ^ 31 ∧ Ours s addr acceptS := by
  have hok : ¬ (acceptS < 0 ∨ some addr = none) := not_or.2 ⟨Int.not_lt.2 hge, nofun⟩
  rw [Intact, if_neg hok, handleNewConnection_accepted hge, ← socket_clientGetOrCreate]
  have hrep : t.Represents first (Network.clientGetOrCreate s acceptS (sockaddrStringify addr)).1.slots := by
    rw [slots_clientGetOrCreate]
    exact h
  generalize Network.clientGetOrCreate s acceptS (sockaddrStringify addr) = r at hrep ⊢
  cases hread : r.1.heap.read r.2 with
  | none =>
      rw [addNewClientToFds_freed hread]
      exact iff_of_false (by rintro ⟨_, _, hcall, -⟩; cases hcall) (by rintro ⟨-, hsocket⟩; cases hsocket)
  | some x =>
      have hspec := addNewClientToFds_spec hrep hread
      split at hspec
      · next hlt =>
          obtain ⟨s', t', hcall, hslots, hrep'⟩ := hspec
          obtain ⟨hnfds, hload⟩ := load_newSlot hrep (hslots ▸ hrep')
          rw [and_iff_right hlt, hcall]
          constructor
          · rintro ⟨s'', t'', heq, -, hfd⟩
            obtain ⟨-, rfl⟩ := Prod.mk.inj (Option.some.inj heq)
            exact hload.symm.trans hfd
          · exact fun hsocket => ⟨s', t', rfl, hnfds, hload.trans hsocket⟩
      · next hfull =>
          rw [hspec]
          exact iff_of_false (by rintro ⟨_, _, hcall, -⟩; cases hcall) fun hall => hfull hall.1

/-- `handle_new_connection` leaves the loop intact if and only if `accept` and `getpeername` go through, the table
has room below the largest `int`, and the client that is kept for the address, if there is one, has the socket that
was accepted. -/
theorem intact_iff (h : t.Represents first s.slots) (acceptS : Int) (peer : Option SockAddr) :
    Intact s t acceptS peer ↔
      0 ≤ acceptS ∧ t.nfds + 1 < 2 ^ 31 ∧ ∃ addr, peer = some addr ∧ Ours s addr acceptS := by
  by_cases hfail : acceptS < 0 ∨ peer = none
  · rw [Intact, if_pos hfail, handleNewConnection_failed hfail]
    refine iff_of_false nofun ?_
    rintro ⟨hge, -, addr, rfl, -⟩
    exact hfail.elim (Int.not_lt.2 hge) nofun
  · obtain ⟨hnot, hpeer⟩ := not_or.1 hfail
    obtain ⟨addr, rfl⟩ := Option.ne_none_iff_exists'.1 hpeer
    have hge : 0 ≤ acceptS := Int.not_lt.1 hnot
    rw [intact_accepted_iff h hge, and_iff_right hge]
    refine and_congr_right fun _ => ⟨fun hours => ⟨addr, rfl, hours⟩, ?_⟩
    rintro ⟨addr', heq, hours⟩
    exact Option.some.inj heq ▸ hours

/-- The address of a peer that connects twice. -/
def localPeer : SockAddr := ⟨⟨127, 0, 0, 1⟩, 4000⟩

/-- The arrays after a run, as long as there are few slots. -/
theorem exists_table_of_run {h : History State Event} (hrun : Run Step State.init h s)
    (hok : StepsMeet (ValidSocket 3) h) (hfew : s.slots.length + 2 < 2 ^ 31) :
    ∃ t first, tableAfter 3 h = some t ∧ t.Represents first s.slots ∧ t.nfds + 1 < 2 ^ 31 := by
  have hl : IsDescriptor 3 := by decide
  obtain ⟨t, first, htable, hrep⟩ := (tabled_of_run hl hrun hok).table
  refine ⟨t, first, htable, hrep, ?_⟩
  rw [hrep.nfds_eq]
  omega

/-- A second peer, while the first one is connected. -/
theorem intact_iff_second_connection : ∃ h s t, Run Step State.init h s ∧ tableAfter 3 h = some t ∧
    s.slots.length = 1 ∧ Intact s t 6 (some { localPeer with sinPort := 4001 }) := by
  obtain ⟨h, s, hrun, hok, hslots, hours⟩ : ∃ h s, Run Step State.init h s ∧
      StepsMeet (ValidSocket 3) h ∧ s.slots.length = 1 ∧
        htGetEntry s.clients (sockaddrStringify { localPeer with sinPort := 4001 }) = none :=
    Run.exists_of_replay id [.poll true [], .accept 5 (sockaddrStringify localPeer), .incoming]
      (P := fun h (s : State) => StepsMeet (ValidSocket 3) h ∧ s.slots.length = 1 ∧
        htGetEntry s.clients (sockaddrStringify { localPeer with sinPort := 4001 }) = none)
      (by decide +kernel)
  obtain ⟨t, first, htable, hrep, hroom⟩ := exists_table_of_run hrun hok (by omega)
  refine ⟨h, s, t, hrun, htable, hslots, (intact_iff hrep 6 _).2 ⟨by decide, hroom, _, rfl, fun c hc => ?_⟩⟩
  exact absurd (hours.symm.trans hc) (Option.some_ne_none c).symm

/-- The client hangs up while its request is still handled. -/
def lingeringSession : List Event :=
  [.poll true [], .accept 5 (sockaddrStringify localPeer), .incoming, .incoming, .incoming, .clean,
    .poll false [{ pollin := true }], .noConnection, .incoming, .incoming, .incoming, .clean,
    .poll false [{ pollrdhup := true }], .noConnection, .incoming, .incoming, .incoming, .clean, .poll true []]

/-- Where `accept` is interrupted the loop does not go on.  Where a peer connects again from the port of a client
that lingers, the slot has the socket of the connection before. -/
theorem failure_not_survived : handleNewConnection State.init (.start 3) (-1) none = none ∧
    ¬ Intact State.init (.start 3) (-1) none ∧
      ∃ h s t s' t', Run Step State.init h s ∧ tableAfter 3 h = some t ∧ ¬ Intact s t 6 (some localPeer) ∧
        handleNewConnection s t 6 (some localPeer) = some (s', t') ∧
          (t'.fds.load t.nfds).map PollFd.fd = some 5 := by
  have hfailed : handleNewConnection State.init (.start 3) (-1) none = none :=
    handleNewConnection_failed (.inl (by decide))
  refine ⟨hfailed, fun hintact => ?_, ?_⟩
  · rw [Intact, if_pos (.inl (by decide)), hfailed] at hintact
    cases hintact
  obtain ⟨h, s, hrun, hok, hslots, hkey, hsocket⟩ : ∃ h s, Run Step State.init h s ∧
      StepsMeet (ValidSocket 3) h ∧ s.slots = [] ∧
        htGetEntry s.clients (sockaddrStringify localPeer) = some 0 ∧
          (s.heap.read 0).map Client.socket = some 5 :=
    Run.exists_of_replay id lingeringSession
      (P := fun h (s : State) => StepsMeet (ValidSocket 3) h ∧ s.slots = [] ∧
        htGetEntry s.clients (sockaddrStringify localPeer) = some 0 ∧
          (s.heap.read 0).map Client.socket = some 5)
      (by decide +kernel)
  have hfew : s.slots.length + 2 < 2 ^ 31 := by
    rw [hslots]
    decide
  obtain ⟨t, first, htable, hrep, hnfds⟩ := exists_table_of_run hrun hok hfew
  have hge : (0 : Int) ≤ 6 := by decide
  -- The client is the one in the table, and so is its socket.
  have hget : Network.clientGetOrCreate s 6 (sockaddrStringify localPeer) = (s, 0) := by
    rw [Network.clientGetOrCreate, hkey]
  obtain ⟨x, hread, hx⟩ := Option.map_eq_some_iff.1 hsocket
  have hspec := addNewClientToFds_spec hrep hread
  rw [if_pos hnfds, hx] at hspec
  obtain ⟨s', t', hcall, hslots', hrep'⟩ := hspec
  refine ⟨h, s, t, s', t', hrun, htable, fun hintact => ?_, ?_, (load_newSlot hrep (hslots' ▸ hrep')).2⟩
  · obtain ⟨-, hours⟩ := (intact_accepted_iff hrep hge).1 hintact
    have hsix := hours 0 hkey
    rw [hsocket] at hsix
    exact absurd (Option.some.inj hsix) (by decide)
  · rw [handleNewConnection_accepted hge, hget]
    exact hcall

end NewConnection
end Network
end CTracker
end Raiezau
