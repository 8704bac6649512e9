import Raiezau.CUtil.HashTable
import Raiezau.Memory.Heap

/-!
# Network — the poll loop of the C tracker and its request threads

`server_run` in `tracker/network.c`, the reference counts of `tracker/client.c` and `handle_request` in
`tracker/protocol.c`, as far as they decide how long a client lives.  One thread runs the loop, every
request has a thread of its own, and their steps interleave freely; the loop may be overtaken between any
two slots, and in a slot between the test of `can_rehear` and the look at `revents`.

A step that follows a null or a freed client has no model: its function returns `none`.
-/

namespace Raiezau
namespace CTracker
namespace Network

open Memory CUtil

/-! ## Data -/

/-- The bits of `events` and `revents`. -/
structure PollBits where
  pollin : Bool := false
  pollrdhup : Bool := false
  pollhup : Bool := false
  pollerr : Bool := false
  pollnval : Bool := false
  deriving DecidableEq, Repr

/-- An entry of `fds` together with the entry of `clients` beside it. -/
structure Slot where
  fd : Int
  events : PollBits
  revents : PollBits
  client : Option Addr
  deriving DecidableEq, Repr

namespace Slot

/-- The slot asks for input. -/
def asking (slot : Slot) : Slot := { slot with events := { pollin := true, pollrdhup := true } }

/-- The slot asks for no input; its results are used up. -/
def quiet (slot : Slot) : Slot := { slot with events := { pollrdhup := true }, revents := {} }

def closed : Slot := { fd := -1, events := {}, revents := {}, client := none }

end Slot

/-- The fields of `struct client` that the loop and the threads use. -/
structure Client where
  connAddrKey : CString
  socket : Int
  refCount : Int
  canRehear : Bool
  deriving DecidableEq, Repr

/-- How far a request thread has got. -/
inductive Phase
  | started
  | handled
  | reheard
  | released
  deriving DecidableEq, Repr

structure Handler where
  client : Addr
  phase : Phase
  deriving DecidableEq, Repr

def Handler.moveTo (h : Handler) (phase : Phase) : Handler := { h with phase := phase }

/-- Where the loop is. -/
inductive Position
  | poll
  | accept
  | rehear (i : Nat)
  | react (i : Nat)
  | clean
  deriving DecidableEq, Repr

/-- `slots` are the entries from the second on, up to `nfds`; the first one is the listener's, of which
only `revents` is kept.  `deleted` records the calls of `delete_client`, latest first. -/
structure State where
  heap : Heap Client
  clients : HashTable Addr
  listenerReady : Bool
  slots : List Slot
  handlers : List Handler
  position : Position
  deleted : List Addr
  deriving DecidableEq, Repr

def State.init : State :=
  { heap := Heap.empty
    clients := htCreate
    listenerReady := false
    slots := []
    handlers := []
    position := .poll
    deleted := [] }

namespace State

def modifyClient (s : State) (c : Addr) (f : Client → Client) : State :=
  { s with heap := s.heap.modify c f }

def addClient (s : State) (connKey : CString) (x : Client) : State :=
  { s with heap := s.heap.alloc x, clients := htAddEntry s.clients connKey s.heap.fresh }

theorem read_modifyClient (s : State) (c d : Addr) (f : Client → Client) :
    (s.modifyClient c f).heap.read d = if d = c then (s.heap.read d).map f else s.heap.read d :=
  Heap.read_modify ..

@[simp] theorem fresh_modifyClient (s : State) (c : Addr) (f : Client → Client) :
    (s.modifyClient c f).heap.fresh = s.heap.fresh :=
  Heap.fresh_modify ..

def setSlot (s : State) (i : Nat) (slot : Slot) : State := { s with slots := s.slots.set i slot }

def addSlot (s : State) (slot : Slot) : State := { s with slots := s.slots ++ [slot] }

def setHandler (s : State) (j : Nat) (h : Handler) : State :=
  { s with handlers := s.handlers.set j h }

def addHandler (s : State) (h : Handler) : State := { s with handlers := s.handlers ++ [h] }

def moveTo (s : State) (position : Position) : State := { s with position := position }

end State

/-! ## Reference counts -/

def clientIncRef (s : State) (c : Addr) : Option State := do
  let _ ← s.heap.read c
  some (s.modifyClient c fun x => { x with refCount := x.refCount + 1 })

def deleteClient (s : State) (c : Addr) : Option State := do
  let x ← s.heap.read c
  some
    { s with
      clients := htRemoveEntry s.clients x.connAddrKey
      heap := s.heap.free c
      deleted := c :: s.deleted }

def clientDecRef (s : State) (c : Addr) : Option State := do
  let x ← s.heap.read c
  let s := s.modifyClient c fun x => { x with refCount := x.refCount - 1 }
  if x.refCount - 1 ≤ 0 then deleteClient s c else some s

/-! ## The loop -/

/-- Results of `poll`: what was asked for, and hangups and errors. -/
def Allowed (slots : List Slot) (revents : List PollBits) : Prop :=
  List.Forall₂ (fun (x : Slot) r => (r.pollin → x.events.pollin) ∧ (r.pollrdhup → x.events.pollrdhup))
    slots revents

instance (slots : List Slot) (revents : List PollBits) : Decidable (Allowed slots revents) := by
  unfold Allowed
  infer_instance

def setRevents (slots : List Slot) (revents : List PollBits) : List Slot :=
  slots.zipWith (fun x r => { x with revents := r }) revents

def clientGetOrCreate (s : State) (socket : Int) (connKey : CString) : State × Addr :=
  match htGetEntry s.clients connKey with
  | some c => (s, c)
  | none =>
      let x : Client := { connAddrKey := connKey, socket := socket, refCount := 0, canRehear := false }
      (s.addClient connKey x, s.heap.fresh)

def addNewClientToFds (s : State) (c : Addr) : Option State := do
  let s ← clientIncRef s c
  let x ← s.heap.read c
  let slot : Slot :=
    { fd := x.socket
      events := { pollin := true, pollrdhup := true }
      revents := {}
      client := some c }
  some (s.addSlot slot)

/-- `handle_new_connection`, once `accept` has returned a socket. -/
def handleNewConnection (s : State) (socket : Int) (connKey : CString) : Option State :=
  let (s, c) := clientGetOrCreate s socket connKey
  addNewClientToFds s c

def startServerReqhandlerThread (s : State) (client : Option Addr) : Option State :=
  match client with
  | some c => do
      let s ← clientIncRef s c
      some (s.addHandler ⟨c, .started⟩)
  | none => some s

/-- The first half of a pass of `handle_incoming_data`. -/
def rehearSlot (s : State) (i : Nat) (slot : Slot) : Option State := do
  let c ← slot.client
  let x ← s.heap.read c
  if x.canRehear then
    let s := s.modifyClient c fun x => { x with canRehear := false }
    some (s.setSlot i slot.asking)
  else some s

/-- The second half. -/
def reactSlot (s : State) (i : Nat) (slot : Slot) : Option State :=
  if slot.revents.pollhup || slot.revents.pollrdhup || slot.revents.pollerr || slot.revents.pollnval then
    match slot.client with
    | some c => do
        let s ← clientDecRef s c
        some (s.setSlot i .closed)
    | none => some s
  else if slot.revents.pollin then
    startServerReqhandlerThread (s.setSlot i slot.quiet) slot.client
  else some s

/-- One unit of `fuel` for each slot: a pass keeps a slot or drops one. -/
def cleanLoop : Nat → List Slot → List Slot
  | 0, _ => []
  | _ + 1, [] => []
  | fuel + 1, x :: rest =>
      if x.fd = -1 then
        match rest.getLast? with
        | none => []
        -- The last slot moves into the place of the closed one and is looked at next.
        | some last => cleanLoop fuel (last :: rest.dropLast)
      else x :: cleanLoop fuel rest

def cleanFds (slots : List Slot) : List Slot := cleanLoop slots.length slots

/-! ## Steps -/

inductive Event
  /-- `poll` returns. -/
  | poll (listenerReady : Bool) (revents : List PollBits)
  /-- `poll` fails with `EINTR`. -/
  | interrupted
  | accept (socket : Int) (connKey : CString)
  | noConnection
  /-- The next half pass of `handle_incoming_data`. -/
  | incoming
  | clean
  /-- The request thread reads its request and runs it. -/
  | request (j : Nat)
  | setCanRehear (j : Nat)
  | decRef (j : Nat)
  deriving DecidableEq, Repr

def incoming (s : State) : Option State :=
  match s.position with
  | .rehear i =>
      match s.slots[i]? with
      | none => some (s.moveTo .clean)
      | some slot =>
          if slot.fd < 0 then some (s.moveTo (.rehear (i + 1)))
          else do
            let s ← rehearSlot s i slot
            some (s.moveTo (.react i))
  | .react i =>
      match s.slots[i]? with
      | none => none
      | some slot => do
          let s ← reactSlot s i slot
          some (s.moveTo (.rehear (i + 1)))
  | _ => none

def step (s : State) : Event → Option State
  | .poll ready revents =>
      if s.position = .poll ∧ Allowed s.slots revents then
        some
          { s with
            listenerReady := ready
            slots := setRevents s.slots revents
            position := .accept }
      else none
  | .interrupted =>
      if s.position = .poll then
        some
          { s with
            listenerReady := false
            slots := setRevents s.slots (s.slots.map fun _ => {})
            position := .accept }
      else none
  -- The connection key is a new one.
  | .accept socket connKey =>
      if s.position = .accept ∧ s.listenerReady ∧ 0 ≤ socket ∧ htGetEntry s.clients connKey = none then do
        let s ← handleNewConnection s socket connKey
        some (s.moveTo (.rehear 0))
      else none
  | .noConnection =>
      if s.position = .accept ∧ !s.listenerReady then some (s.moveTo (.rehear 0)) else none
  | .incoming => incoming s
  | .clean =>
      if s.position = .clean then some { s with slots := cleanFds s.slots, position := .poll } else none
  | .request j => do
      let h ← s.handlers[j]?
      let _ ← s.heap.read h.client
      if h.phase = .started then some (s.setHandler j (h.moveTo .handled)) else none
  | .setCanRehear j => do
      let h ← s.handlers[j]?
      let _ ← s.heap.read h.client
      if h.phase = .handled then
        let s := s.modifyClient h.client fun x => { x with canRehear := true }
        some (s.setHandler j (h.moveTo .reheard))
      else none
  | .decRef j => do
      let h ← s.handlers[j]?
      if h.phase = .reheard then do
        let s ← clientDecRef s h.client
        some (s.setHandler j (h.moveTo .released))
      else none

end Network
end CTracker
end Raiezau
