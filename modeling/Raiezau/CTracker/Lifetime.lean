import Raiezau.CTracker.Network
import Raiezau.Machine.Run

/-!
# Lifetime — how long a client lives under the poll loop

For one client, `Life` is what the program holds of it: the record, the slots and the threads that use
it, and how often it was deleted.  `Life.Ok` is the invariant: the count in the record is the number of
users, the record is deleted once, with its last user, and of three things at most one is the case: a
thread works on a request, `can_rehear` is set, the client's slot asks for input.  The last part is what
keeps a second thread from being started.
-/

namespace Raiezau
namespace CTracker
namespace Network

open Memory CUtil Machine

variable {s s' : State} {c d : Addr} {x : Client} {i j : Nat}

/-! ## The life of one client -/

@[ext]
structure Life where
  cell : Option Client
  created : Bool
  deletions : Nat
  held : Nat
  listening : Nat
  pending : Nat
  active : Nat

namespace Life

def users (v : Life) : Nat := v.held + v.pending

structure Ok (v : Life) : Prop where
  live : ∀ {x}, v.cell = some x → v.created = true ∧ v.deletions = 0 ∧ x.refCount = v.users ∧
    0 < v.users ∧ v.active + x.canRehear.toNat + v.listening ≤ 1
  gone : v.cell = none → v.users = 0 ∧ v.active = 0 ∧ v.listening = 0 ∧
    v.deletions = v.created.toNat

variable {v : Life}

theorem Ok.accept (hv : v.Ok) (hcell : v.cell = none) (hcreated : v.created = false)
    (hcount : x.refCount = 1) (hrehear : x.canRehear = false) :
    Ok { v with cell := some x, created := true, held := v.held + 1, listening := v.listening + 1 } := by
  obtain ⟨husers, hactive, hlistening, hdeletions⟩ := hv.gone hcell
  rw [hcreated] at hdeletions
  unfold users at husers
  refine ⟨fun hx => ?_, fun h => by cases h⟩
  obtain rfl := Option.some.inj hx
  simp only [users, hrehear, Bool.toNat_false]
  exact ⟨trivial, hdeletions, by omega, by omega, by omega⟩

/-- A slot that asked for no input asks for it again. -/
theorem Ok.rehear (hv : v.Ok) (hcell : v.cell = some x) (hrehear : x.canRehear = true) :
    Ok { v with cell := some { x with canRehear := false }, listening := v.listening + 1 } := by
  obtain ⟨hcreated, hdeletions, hcount, husers, hone⟩ := hv.live hcell
  rw [hrehear, Bool.toNat_true] at hone
  refine ⟨fun hx => ?_, fun h => by cases h⟩
  obtain rfl := Option.some.inj hx
  refine ⟨hcreated, hdeletions, hcount, husers, ?_⟩
  simp only [Bool.toNat_false]
  omega

/-- A slot that asked for input gets it: a thread is started and the slot asks no more. -/
theorem Ok.start (hv : v.Ok) (hcell : v.cell = some x) (hlistening : 0 < v.listening) :
    Ok
      { v with
        cell := some { x with refCount := x.refCount + 1 }
        listening := v.listening - 1
        pending := v.pending + 1
        active := v.active + 1 } := by
  obtain ⟨hcreated, hdeletions, hcount, husers, hone⟩ := hv.live hcell
  unfold users at hcount husers
  refine ⟨fun hx => ?_, fun h => by cases h⟩
  obtain rfl := Option.some.inj hx
  simp only [users]
  refine ⟨hcreated, hdeletions, ?_, by omega, by omega⟩
  omega

theorem Ok.setCanRehear (hv : v.Ok) (hcell : v.cell = some x) (hactive : 0 < v.active) :
    Ok { v with cell := some { x with canRehear := true }, active := v.active - 1 } := by
  obtain ⟨hcreated, hdeletions, hcount, husers, hone⟩ := hv.live hcell
  refine ⟨fun hx => ?_, fun h => by cases h⟩
  obtain rfl := Option.some.inj hx
  refine ⟨hcreated, hdeletions, hcount, husers, ?_⟩
  simp only [Bool.toNat_true]
  omega

/-- A user goes: the record goes with the last one. -/
theorem Ok.decRef {v' : Life} (hv : v.Ok) (hcell : v.cell = some x)
    (hcell' : v'.cell =
      if x.refCount - 1 ≤ 0 then none else some { x with refCount := x.refCount - 1 })
    (hcreated' : v'.created = v.created)
    (hdeletions' : v'.deletions = v.deletions + if x.refCount - 1 ≤ 0 then 1 else 0)
    (husers' : v'.users + 1 = v.users) (hlistening' : v'.listening ≤ v.listening)
    (hactive' : v'.active ≤ v.active) (hheld : v'.listening ≤ v'.held) (hpending : v'.active ≤ v'.pending) :
    v'.Ok := by
  obtain ⟨hcreated, hdeletions, hcount, husers, hone⟩ := hv.live hcell
  have husersEq : v'.users = v'.held + v'.pending := rfl
  -- The record goes with its last user, and the memory with it.
  by_cases hlast : x.refCount - 1 ≤ 0
  · rw [if_pos hlast] at hcell' hdeletions'
    refine ⟨fun hx => (by cases hcell'.symm.trans hx), fun _ => ?_⟩
    rw [hcreated', hcreated, Bool.toNat_true]
    omega
  · rw [if_neg hlast] at hcell' hdeletions'
    refine ⟨fun hx => ?_, fun hx => (by cases hcell'.symm.trans hx)⟩
    obtain rfl := Option.some.inj (hcell'.symm.trans hx)
    refine ⟨hcreated'.trans hcreated, by omega, ?_, by omega, ?_⟩
    · dsimp only
      omega
    · dsimp only
      omega

end Life

/-! ## Users of a client -/

def Slot.holds (c : Addr) (slot : Slot) : Bool := slot.client = some c

/-- The slot asks for input from the client. -/
def Slot.listens (c : Addr) (slot : Slot) : Bool := slot.holds c && slot.events.pollin

def Handler.pendingOn (c : Addr) (h : Handler) : Bool := h.client = c && h.phase ≠ .released

/-- Between its start and its `can_rehear` step. -/
def Handler.activeOn (c : Addr) (h : Handler) : Bool :=
  h.client = c && (h.phase = .started || h.phase = .handled)

def State.held (s : State) (c : Addr) : Nat := s.slots.countP (Slot.holds c)

def State.listening (s : State) (c : Addr) : Nat := s.slots.countP (Slot.listens c)

def State.pending (s : State) (c : Addr) : Nat := s.handlers.countP (Handler.pendingOn c)

def State.active (s : State) (c : Addr) : Nat := s.handlers.countP (Handler.activeOn c)

def State.life (s : State) (c : Addr) : Life :=
  { cell := s.heap.read c
    created := c < s.heap.fresh
    deletions := s.deleted.count c
    held := s.held c
    listening := s.listening c
    pending := s.pending c
    active := s.active c }

theorem listening_le_held : s.listening c ≤ s.held c :=
  List.countP_mono_left fun _ _ h => (Bool.and_eq_true_iff.1 h).1

theorem active_le_pending : s.active c ≤ s.pending c := by
  refine List.countP_mono_left fun h _ hactive => ?_
  obtain ⟨hclient, hphase⟩ := Bool.and_eq_true_iff.1 hactive
  refine Bool.and_eq_true_iff.2 ⟨hclient, ?_⟩
  cases hp : h.phase <;> simp [hp] at hphase ⊢

theorem countP_set_toNat {α : Type} {l : List α} {i : Nat} {y : α} (p : α → Bool)
    (h : l[i]? = some y) (z : α) :
    (l.set i z).countP p = l.countP p - (p y).toNat + (p z).toNat := by
  obtain ⟨hi, rfl⟩ := List.getElem?_eq_some_iff.1 h
  rw [List.countP_set hi]
  cases p l[i] <;> cases p z <;> rfl

theorem toNat_le_countP {α : Type} {l : List α} {i : Nat} {y : α} (p : α → Bool)
    (h : l[i]? = some y) : (p y).toNat ≤ l.countP p := by
  cases hp : p y with
  | false => exact Nat.zero_le _
  | true => exact List.countP_pos_iff.2 ⟨y, List.mem_of_getElem? h, hp⟩

/-! ### What an update does to the life of a client -/

theorem life_modify_self (f : Client → Client) :
    (s.modifyClient c f).life c =
      { s.life c with cell := (s.heap.read c).map f } := by
  ext1 <;> try rfl
  · simp [State.life, State.read_modifyClient]
  · simp [State.life]

theorem life_modify_of_ne {f : Client → Client} (hd : d ≠ c) :
    (s.modifyClient c f).life d = s.life d := by
  ext1 <;> try rfl
  · simp [State.life, State.read_modifyClient, hd]
  · simp [State.life]

theorem life_setSlot {slot : Slot} (hi : s.slots[i]? = some slot) (slot' : Slot) :
    (s.setSlot i slot').life d =
      { s.life d with
        held := s.held d - (slot.holds d).toNat + (slot'.holds d).toNat
        listening := s.listening d - (slot.listens d).toNat + (slot'.listens d).toNat } := by
  ext1 <;> try rfl
  · exact countP_set_toNat _ hi slot'
  · exact countP_set_toNat _ hi slot'

theorem life_setHandler {h : Handler} (hj : s.handlers[j]? = some h) (h' : Handler) :
    (s.setHandler j h').life d =
      { s.life d with
        pending := s.pending d - (h.pendingOn d).toNat + (h'.pendingOn d).toNat
        active := s.active d - (h.activeOn d).toNat + (h'.activeOn d).toNat } := by
  ext1 <;> try rfl
  · exact countP_set_toNat _ hj h'
  · exact countP_set_toNat _ hj h'

theorem countP_concat_toNat {α : Type} (p : α → Bool) (l : List α) (z : α) :
    (l ++ [z]).countP p = l.countP p + (p z).toNat := by
  rw [List.countP_append]
  cases hz : p z <;> simp [hz]

theorem life_addHandler (h : Handler) :
    (s.addHandler h).life d =
      { s.life d with
        pending := s.pending d + (h.pendingOn d).toNat
        active := s.active d + (h.activeOn d).toNat } := by
  ext1 <;> try rfl
  · exact countP_concat_toNat _ _ h
  · exact countP_concat_toNat _ _ h

theorem life_addSlot (slot : Slot) :
    (s.addSlot slot).life d =
      { s.life d with
        held := s.held d + (slot.holds d).toNat
        listening := s.listening d + (slot.listens d).toNat } := by
  ext1 <;> try rfl
  · exact countP_concat_toNat _ _ slot
  · exact countP_concat_toNat _ _ slot

theorem holds_self {slot : Slot} (hc : slot.client = some c) : slot.holds c = true := by
  simp [Slot.holds, hc]

theorem listens_self {slot : Slot} (hc : slot.client = some c) :
    slot.listens c = slot.events.pollin := by
  rw [Slot.listens, holds_self hc, Bool.true_and]

theorem holds_eq_false {slot : Slot} (hc : slot.client = some c) (hd : d ≠ c) :
    slot.holds d = false := by
  simp only [Slot.holds, hc, Option.some.injEq, decide_eq_false_iff_not]
  exact fun h => hd h.symm

theorem listens_eq_false {slot : Slot} (h : slot.holds d = false) : slot.listens d = false := by
  rw [Slot.listens, h, Bool.false_and]

theorem held_pos {slot : Slot} (hi : s.slots[i]? = some slot) (hc : slot.client = some c) :
    0 < s.held c :=
  List.countP_pos_iff.2 ⟨slot, List.mem_of_getElem? hi, holds_self hc⟩

/-- A slot that goes from one client to the same, or to none, concerns no other. -/
theorem life_setSlot_of_ne {slot : Slot} (hi : s.slots[i]? = some slot) (slot' : Slot)
    (h : slot.holds d = false) (h' : slot'.holds d = false) :
    (s.setSlot i slot').life d = s.life d := by
  rw [life_setSlot hi slot', h, h', listens_eq_false h, listens_eq_false h']
  rfl

theorem life_setSlot_self {slot : Slot} (hi : s.slots[i]? = some slot) (slot' : Slot)
    (hc : slot.client = some c) (hc' : slot'.client = some c) :
    (s.setSlot i slot').life c =
      { s.life c with
        listening := s.listening c - slot.events.pollin.toNat + slot'.events.pollin.toNat } := by
  rw [life_setSlot hi slot', holds_self hc, holds_self hc', listens_self hc, listens_self hc',
    Bool.toNat_true, Nat.sub_add_cancel (held_pos hi hc)]
  rfl

theorem life_closeSlot {slot : Slot} (hi : s.slots[i]? = some slot) (slot' : Slot)
    (hc : slot.client = some c) (hc' : slot'.client = none) :
    (s.setSlot i slot').life c =
      { s.life c with
        held := s.held c - 1
        listening := s.listening c - slot.events.pollin.toNat } := by
  have hempty : slot'.holds c = false := by simp [Slot.holds, hc']
  rw [life_setSlot hi slot', holds_self hc, hempty, listens_self hc, listens_eq_false hempty]
  rfl

theorem pendingOn_eq_false {h : Handler} (hd : d ≠ h.client) :
    h.pendingOn d = false ∧ h.activeOn d = false := by
  have hne : h.client ≠ d := fun heq => hd heq.symm
  simp [Handler.pendingOn, Handler.activeOn, hne]

theorem life_setHandler_of_ne {h : Handler} (hj : s.handlers[j]? = some h) (h' : Handler)
    (hclient : h'.client = h.client) (hd : d ≠ h.client) :
    (s.setHandler j h').life d = s.life d := by
  obtain ⟨hpending, hactive⟩ := pendingOn_eq_false hd
  obtain ⟨hpending', hactive'⟩ := pendingOn_eq_false (h := h') (hclient ▸ hd)
  rw [life_setHandler hj h', hpending, hactive, hpending', hactive']
  rfl

theorem life_addHandler_of_ne {h : Handler} (hd : d ≠ h.client) :
    (s.addHandler h).life d = s.life d := by
  obtain ⟨hpending, hactive⟩ := pendingOn_eq_false hd
  rw [life_addHandler, hpending, hactive]
  rfl

theorem life_addSlot_of_ne {slot : Slot} (h : slot.holds d = false) :
    (s.addSlot slot).life d = s.life d := by
  rw [life_addSlot, h, listens_eq_false h]
  rfl

/-! ## The invariant -/

def Slot.Sane (slot : Slot) : Prop :=
  (slot.revents.pollin → slot.events.pollin) ∧
    ((slot.fd = -1 ∧ slot.client = none) ∨ (0 ≤ slot.fd ∧ ∃ c, slot.client = some c))

structure Inv (s : State) : Prop where
  life : ∀ c, (s.life c).Ok
  slots : ∀ slot ∈ s.slots, slot.Sane

theorem inv_init : Inv State.init := by
  refine ⟨fun c => ⟨fun hx => ?_, fun _ => ⟨rfl, rfl, rfl, rfl⟩⟩, by simp [State.init]⟩
  simp [State.life, State.init] at hx

theorem sane_set {slot : Slot} (h : ∀ x ∈ s.slots, x.Sane) (hslot : slot.Sane) :
    ∀ x ∈ s.slots.set i slot, x.Sane := fun x hx => by
  rcases List.mem_or_eq_of_mem_set hx with hx | rfl
  · exact h x hx
  · exact hslot

theorem rehearSlot_inv {slot : Slot} (hinv : Inv s) (hi : s.slots[i]? = some slot)
    (h : rehearSlot s i slot = some s') : Inv s' := by
  have hsane := hinv.slots slot (List.mem_of_getElem? hi)
  unfold rehearSlot at h
  obtain ⟨c, hclient, h⟩ := Option.bind_eq_some_iff.1 h
  obtain ⟨x, hread, h⟩ := Option.bind_eq_some_iff.1 h
  split at h
  · next hrehear =>
      cases h
      have hi' : ∀ f, (s.modifyClient c f).slots[i]? = some slot := fun _ => hi
      refine ⟨fun d => ?_, sane_set hinv.slots ⟨fun _ => rfl, hsane.2⟩⟩
      -- The other clients have the users they had.
      by_cases hd : d = c
      · subst hd
        have hquiet : slot.events.pollin.toNat = 0 := by
          have hone := ((hinv.life d).live hread).2.2.2.2
          have hle : (slot.listens d).toNat ≤ (s.life d).listening := toNat_le_countP _ hi
          rw [listens_self hclient] at hle
          rw [hrehear, Bool.toNat_true] at hone
          omega
        rw [life_setSlot_self (hi' _) slot.asking hclient hclient, life_modify_self, hread, hquiet]
        exact (hinv.life d).rehear hread hrehear
      · rw [life_setSlot_of_ne (hi' _) slot.asking (holds_eq_false hclient hd)
          (holds_eq_false hclient hd), life_modify_of_ne hd]
        exact hinv.life d
  · cases h
    exact hinv

/-! ### Reference counts -/

/-- What `client_dec_ref` does. -/
structure Drops (s : State) (c : Addr) (x : Client) (s' : State) : Prop where
  read : s.heap.read c = some x
  slots : s'.slots = s.slots
  handlers : s'.handlers = s.handlers
  fresh : s'.heap.fresh = s.heap.fresh
  cell : s'.heap.read c =
    if x.refCount - 1 ≤ 0 then none else some { x with refCount := x.refCount - 1 }
  deletions : s'.deleted.count c = s.deleted.count c + if x.refCount - 1 ≤ 0 then 1 else 0
  others : ∀ {d}, d ≠ c → s'.heap.read d = s.heap.read d ∧ s'.deleted.count d = s.deleted.count d

theorem clientDecRef_drops (h : clientDecRef s c = some s') : ∃ x, Drops s c x s' := by
  unfold clientDecRef at h
  obtain ⟨x, hread, h⟩ := Option.bind_eq_some_iff.1 h
  split at h
  · next hlast =>
      unfold deleteClient at h
      obtain ⟨y, hy, h⟩ := Option.bind_eq_some_iff.1 h
      cases h
      refine ⟨x, hread, rfl, rfl, by simp, ?_, ?_, fun hd => ⟨?_, ?_⟩⟩
      · rw [if_pos hlast, Heap.read_free_self]
      · rw [if_pos hlast, List.count_cons_self]
        rfl
      · rw [Heap.read_free, if_neg hd, State.read_modifyClient, if_neg hd]
      · rw [List.count_cons_of_ne (Ne.symm hd)]
        rfl
  · next hlast =>
      cases h
      refine ⟨x, hread, rfl, rfl, by simp, ?_, ?_, fun hd => ⟨?_, rfl⟩⟩
      · rw [if_neg hlast, State.read_modifyClient, if_pos rfl, hread, Option.map_some]
      · rw [if_neg hlast, Nat.add_zero]
        rfl
      · rw [State.read_modifyClient, if_neg hd]

theorem Drops.life_of_ne (h : Drops s c x s') (hd : d ≠ c) : s'.life d = s.life d := by
  obtain ⟨hread, hcount⟩ := h.others hd
  simp only [State.life, State.held, State.listening, State.pending, State.active, h.slots,
    h.handlers, h.fresh, hread, hcount]

/-- The users of a client are counted by the slots and the threads alone. -/
theorem Drops.counts (h : Drops s c x s') (d : Addr) : s'.held d = s.held d ∧
    s'.listening d = s.listening d ∧ s'.pending d = s.pending d ∧ s'.active d = s.active d := by
  simp only [State.held, State.listening, State.pending, State.active, h.slots, h.handlers, and_self]

theorem clientIncRef_eq (h : clientIncRef s c = some s') : ∃ x, s.heap.read c = some x ∧
    s' = s.modifyClient c fun x => { x with refCount := x.refCount + 1 } := by
  unfold clientIncRef at h
  obtain ⟨x, hread, h⟩ := Option.bind_eq_some_iff.1 h
  exact ⟨x, hread, (Option.some.inj h).symm⟩

/-! ### Hangups and requests -/

theorem hangup_inv {slot closed : Slot} (hinv : Inv s) (hi : s.slots[i]? = some slot)
    (hclient : slot.client = some c) (hclosed : closed.client = none) (hsane : closed.Sane)
    (hdrop : Drops s c x s') : Inv (s'.setSlot i closed) := by
  have hi' : s'.slots[i]? = some slot := by rw [hdrop.slots, hi]
  refine ⟨fun d => ?_, sane_set (by rw [hdrop.slots]; exact hinv.slots) hsane⟩
  by_cases hd : d = c
  · subst hd
    have hlife := life_closeSlot hi' closed hclient hclosed
    obtain ⟨hheld, hlistening, hpending, hactive⟩ := hdrop.counts d
    have hpos := held_pos hi hclient
    refine (hinv.life d).decRef hdrop.read hdrop.cell ?_ hdrop.deletions ?_ ?_ (le_of_eq hactive)
      listening_le_held active_le_pending
    · exact congrArg (fun n => decide (d < n)) hdrop.fresh
    · rw [hlife]
      simp only [Life.users, State.life, hheld, hpending]
      omega
    · rw [hlife]
      simp only [State.life, hlistening]
      omega
  · have hempty : closed.holds d = false := by simp [Slot.holds, hclosed]
    rw [life_setSlot_of_ne hi' closed (holds_eq_false hclient hd) hempty, hdrop.life_of_ne hd]
    exact hinv.life d

theorem startThread_inv {slot : Slot} (hinv : Inv s) (hi : s.slots[i]? = some slot)
    (hclient : slot.client = some c) (hasked : slot.events.pollin = true) (hsane : slot.quiet.Sane)
    (h : startServerReqhandlerThread (s.setSlot i slot.quiet) (some c) = some s') : Inv s' := by
  have hquiet : slot.quiet.events.pollin = false := rfl
  unfold startServerReqhandlerThread at h
  obtain ⟨t, hinc, h⟩ := Option.bind_eq_some_iff.1 h
  obtain ⟨x, hread, rfl⟩ := clientIncRef_eq hinc
  cases h
  refine ⟨fun d => ?_, sane_set hinv.slots hsane⟩
  by_cases hd : d = c
  · subst hd
    have hlistening : 0 < s.listening d := List.countP_pos_iff.2
      ⟨slot, List.mem_of_getElem? hi, (listens_self hclient).trans hasked⟩
    have hok := (hinv.life d).start hread hlistening
    have hpending : Handler.pendingOn d ⟨d, .started⟩ = true := by simp [Handler.pendingOn]
    have hactive : Handler.activeOn d ⟨d, .started⟩ = true := by simp [Handler.activeOn]
    rw [life_addHandler, life_modify_self, life_setSlot_self hi slot.quiet hclient hclient, hread, hasked, hquiet,
      hpending, hactive]
    exact hok
  · rw [life_addHandler_of_ne hd, life_modify_of_ne hd,
      life_setSlot_of_ne hi slot.quiet (holds_eq_false hclient hd) (holds_eq_false hclient hd)]
    exact hinv.life d

theorem reactSlot_inv {slot : Slot} (hinv : Inv s) (hi : s.slots[i]? = some slot)
    (h : reactSlot s i slot = some s') : Inv s' := by
  obtain ⟨hrevents, hshape⟩ := hinv.slots slot (List.mem_of_getElem? hi)
  unfold reactSlot at h
  -- A slot that hung up is closed, one with input gets a thread, and any other is left alone.
  split at h
  · cases hclient : slot.client with
    | none =>
        rw [hclient] at h
        cases h
        exact hinv
    | some c =>
        rw [hclient] at h
        obtain ⟨t, hdec, h⟩ := Option.bind_eq_some_iff.1 h
        obtain ⟨x, hdrop⟩ := clientDecRef_drops hdec
        cases h
        exact hangup_inv hinv hi hclient rfl ⟨fun h => h, .inl ⟨rfl, rfl⟩⟩ hdrop
  · split at h
    · next hpollin =>
        cases hclient : slot.client with
        | none =>
            rw [hclient] at h
            cases h
            refine ⟨fun d => ?_, sane_set hinv.slots ⟨fun h => (by cases h), hshape⟩⟩
            have hempty : slot.holds d = false := by simp [Slot.holds, hclient]
            rw [life_setSlot_of_ne hi slot.quiet hempty hempty]
            exact hinv.life d
        | some c =>
            rw [hclient] at h
            exact startThread_inv hinv hi hclient (hrevents hpollin) ⟨fun h => (by cases h), hshape⟩ h
    · cases h
      exact hinv

/-! ### Request threads -/

theorem request_inv {h : Handler} (hinv : Inv s) (hj : s.handlers[j]? = some h)
    (hphase : h.phase = .started) : Inv (s.setHandler j (h.moveTo .handled)) := by
  refine ⟨fun d => ?_, hinv.slots⟩
  have hlife : (s.setHandler j (h.moveTo .handled)).life d = s.life d := by
    by_cases hd : d = h.client
    · subst hd
      have hpending : (h.pendingOn h.client).toNat ≤ s.pending h.client := toNat_le_countP _ hj
      have hactive : (h.activeOn h.client).toNat ≤ s.active h.client := toNat_le_countP _ hj
      have hkeep : Handler.pendingOn h.client (h.moveTo .handled) = h.pendingOn h.client := by
        simp [Handler.pendingOn, Handler.moveTo, hphase]
      have hkeep' : Handler.activeOn h.client (h.moveTo .handled) = h.activeOn h.client := by
        simp [Handler.activeOn, Handler.moveTo, hphase]
      rw [life_setHandler hj (h.moveTo .handled), hkeep, hkeep', Nat.sub_add_cancel hpending, Nat.sub_add_cancel hactive]
      rfl
    · exact life_setHandler_of_ne hj (h.moveTo .handled) rfl hd
  exact hlife ▸ hinv.life d

theorem setCanRehear_inv {h : Handler} (hinv : Inv s) (hj : s.handlers[j]? = some h)
    (hread : s.heap.read h.client = some x) (hphase : h.phase = .handled) :
    Inv ((s.modifyClient h.client fun x => { x with canRehear := true }).setHandler j
      (h.moveTo .reheard)) := by
  have hj' : ∀ f, (s.modifyClient h.client f).handlers[j]? = some h := fun _ => hj
  refine ⟨fun d => ?_, hinv.slots⟩
  by_cases hd : d = h.client
  · subst hd
    have hpending : (h.pendingOn h.client).toNat ≤ s.pending h.client := toNat_le_countP _ hj
    have hactive : (h.activeOn h.client).toNat ≤ s.active h.client := toNat_le_countP _ hj
    have hbefore : h.activeOn h.client = true := by simp [Handler.activeOn, hphase]
    have hafter : Handler.activeOn h.client (h.moveTo .reheard) = false := by
      simp [Handler.activeOn, Handler.moveTo]
    have hkeep : Handler.pendingOn h.client (h.moveTo .reheard) = h.pendingOn h.client := by
      simp [Handler.pendingOn, Handler.moveTo, hphase]
    rw [hbefore] at hactive
    have hok := (hinv.life h.client).setCanRehear hread hactive
    rw [life_setHandler (hj' _) (h.moveTo .reheard), life_modify_self, hread, hbefore, hafter, hkeep]
    change Life.Ok { s.life h.client with
      cell := some { x with canRehear := true }
      pending := s.pending h.client - (h.pendingOn h.client).toNat + (h.pendingOn h.client).toNat
      active := s.active h.client - 1 }
    rw [Nat.sub_add_cancel hpending]
    exact hok
  · rw [life_setHandler_of_ne (hj' _) (h.moveTo .reheard) rfl hd, life_modify_of_ne hd]
    exact hinv.life d

theorem release_inv {h : Handler} (hinv : Inv s) (hj : s.handlers[j]? = some h)
    (hphase : h.phase = .reheard) (hdrop : Drops s h.client x s') :
    Inv (s'.setHandler j (h.moveTo .released)) := by
  have hj' : s'.handlers[j]? = some h := by rw [hdrop.handlers, hj]
  refine ⟨fun d => ?_, fun slot hslot => hinv.slots slot (hdrop.slots ▸ hslot)⟩
  by_cases hd : d = h.client
  · subst hd
    have hpending : (h.pendingOn h.client).toNat ≤ s.pending h.client := toNat_le_countP _ hj
    have hbefore : h.pendingOn h.client = true := by simp [Handler.pendingOn, hphase]
    have hafter : Handler.pendingOn h.client (h.moveTo .released) = false := by
      simp [Handler.pendingOn, Handler.moveTo]
    have hactive : h.activeOn h.client = false := by simp [Handler.activeOn, hphase]
    have hactive' : Handler.activeOn h.client (h.moveTo .released) = false := by
      simp [Handler.activeOn, Handler.moveTo]
    have hlife := life_setHandler (d := h.client) hj' (h.moveTo .released)
    rw [hbefore, hafter, hactive, hactive'] at hlife
    rw [hbefore] at hpending
    obtain ⟨hheldEq, hlisteningEq, hpendingEq, hactiveEq⟩ := hdrop.counts h.client
    refine (hinv.life h.client).decRef hdrop.read hdrop.cell ?_ hdrop.deletions ?_
      (le_of_eq hlisteningEq) ?_ listening_le_held active_le_pending
    · exact congrArg (fun n => decide (h.client < n)) hdrop.fresh
    · rw [hlife]
      simp only [Life.users, State.life, hheldEq, hpendingEq, Bool.toNat_true, Bool.toNat_false] at hpending ⊢
      omega
    · rw [hlife]
      simp only [State.life, hactiveEq, Bool.toNat_false]
      omega
  · rw [life_setHandler_of_ne hj' (h.moveTo .released) rfl hd, hdrop.life_of_ne hd]
    exact hinv.life d

/-! ### New connections -/

theorem life_addClient_self {connKey : CString} :
    (s.addClient connKey x).life s.heap.fresh =
      { s.life s.heap.fresh with cell := some x, created := true } := by
  ext1 <;> try rfl
  · exact Heap.read_alloc_fresh _ _
  · simp [State.life, State.addClient]

theorem life_addClient_of_ne {connKey : CString} (hd : d ≠ s.heap.fresh) :
    (s.addClient connKey x).life d = s.life d := by
  have hfresh : d < s.heap.fresh + 1 ↔ d < s.heap.fresh :=
    ⟨fun h => Nat.lt_of_le_of_ne (Nat.le_of_lt_succ h) hd, Nat.lt_succ_of_lt⟩
  ext1 <;> try rfl
  · exact Heap.read_alloc_of_ne hd
  · simp [State.life, State.addClient, hfresh]

theorem accept_inv {socket : Int} {connKey : CString} (hinv : Inv s) (hsocket : 0 ≤ socket)
    (hkey : htGetEntry s.clients connKey = none)
    (h : handleNewConnection s socket connKey = some s') : Inv s' := by
  unfold handleNewConnection clientGetOrCreate addNewClientToFds at h
  rw [hkey] at h
  obtain ⟨t, hinc, h⟩ := Option.bind_eq_some_iff.1 h
  obtain ⟨y, hy, rfl⟩ := clientIncRef_eq hinc
  obtain ⟨x, hx, h⟩ := Option.bind_eq_some_iff.1 h
  cases h
  have hnew : ∀ z, (s.addClient connKey z).heap.read s.heap.fresh = some z :=
    fun z => Heap.read_alloc_fresh _ z
  rw [State.read_modifyClient, if_pos rfl, hnew, Option.map_some] at hx
  cases hx
  refine ⟨fun d => ?_, fun slot hslot => ?_⟩
  · by_cases hd : d = s.heap.fresh
    · subst hd
      have hcreated : (s.life s.heap.fresh).created = false := decide_eq_false (Nat.lt_irrefl _)
      have hok := (hinv.life s.heap.fresh).accept (x := ⟨connKey, socket, 0 + 1, false⟩)
        (s.heap.read_fresh) hcreated rfl rfl
      rw [life_addSlot, holds_self rfl, listens_self rfl, life_modify_self, hnew, life_addClient_self]
      exact hok
    · rw [life_addSlot_of_ne (holds_eq_false rfl hd), life_modify_of_ne hd, life_addClient_of_ne hd]
      exact hinv.life d
  · rcases List.mem_append.1 hslot with hslot | hslot
    · exact hinv.slots slot hslot
    · obtain rfl := List.mem_singleton.1 hslot
      exact ⟨fun h => (by cases h), .inr ⟨hsocket, _, rfl⟩⟩

/-! ### Poll and clean -/

/-- Poll results change nothing a client is counted by. -/
theorem countP_setRevents {slots : List Slot} {revents : List PollBits}
    (hallowed : Allowed slots revents) (p : Slot → Bool)
    (hp : ∀ slot r, p { slot with revents := r } = p slot) :
    (setRevents slots revents).countP p = slots.countP p := by
  unfold Allowed at hallowed
  unfold setRevents
  induction hallowed with
  | nil => rfl
  | @cons slot r slots revents _ _ ih =>
      rw [List.zipWith_cons_cons, List.countP_cons, List.countP_cons, ih, hp]

theorem sane_setRevents {slots : List Slot} {revents : List PollBits}
    (hallowed : Allowed slots revents) (hsane : ∀ slot ∈ slots, slot.Sane) :
    ∀ slot ∈ setRevents slots revents, slot.Sane := by
  unfold Allowed at hallowed
  unfold setRevents
  induction hallowed with
  | nil => simp
  | @cons slot r slots revents hr _ ih =>
      intro y hy
      rw [List.zipWith_cons_cons] at hy
      rcases List.mem_cons.1 hy with rfl | hy
      · exact ⟨hr.1, (hsane slot (by simp)).2⟩
      · exact ih (fun z hz => hsane z (by simp [hz])) y hy

theorem poll_inv {revents : List PollBits} {ready : Bool} {position : Position} (hinv : Inv s)
    (hallowed : Allowed s.slots revents) :
    Inv { s with
      listenerReady := ready, slots := setRevents s.slots revents, position := position } := by
  refine ⟨fun d => ?_, sane_setRevents hallowed hinv.slots⟩
  have hheld := countP_setRevents hallowed (Slot.holds d) fun _ _ => rfl
  have hlistening := countP_setRevents hallowed (Slot.listens d) fun _ _ => rfl
  have hlife : State.life { s with
      listenerReady := ready, slots := setRevents s.slots revents, position := position } d =
      s.life d := by
    ext1 <;> try rfl
    · exact hheld
    · exact hlistening
  exact hlife ▸ hinv.life d

theorem allowed_zero (slots : List Slot) : Allowed slots (slots.map fun _ => {}) := by
  unfold Allowed
  induction slots with
  | nil => exact .nil
  | cons slot slots ih => exact .cons ⟨fun h => (by cases h), fun h => (by cases h)⟩ ih

/-- What is left are the open slots, in some order. -/
theorem cleanLoop_perm {fuel : Nat} {slots : List Slot} (hfuel : slots.length ≤ fuel) :
    (cleanLoop fuel slots).Perm (slots.filter fun slot => slot.fd ≠ -1) := by
  -- A closed slot is filled with the last one, which is looked at again: the fuel is the number of slots left.
  induction fuel generalizing slots with
  | zero =>
      obtain rfl := List.length_eq_zero_iff.1 (Nat.le_zero.1 hfuel)
      exact .nil
  | succ fuel ih =>
      cases slots with
      | nil => exact .nil
      | cons slot rest =>
          rw [List.length_cons] at hfuel
          rw [cleanLoop]
          split
          · next hclosed =>
              rw [List.filter_cons_of_neg (by simpa using hclosed)]
              cases hlast : rest.getLast? with
              | none =>
                  rw [List.getLast?_eq_none_iff.1 hlast]
                  exact .nil
              | some last =>
                  have hrest : rest = rest.dropLast ++ [last] :=
                    (List.dropLast_append_getLast? last hlast).symm
                  have hlen : (last :: rest.dropLast).length ≤ fuel := by
                    have := congrArg List.length hrest
                    simp only [List.length_append, List.length_cons, List.length_nil] at this ⊢
                    omega
                  refine (ih hlen).trans ?_
                  conv => rhs; rw [hrest]
                  exact (List.perm_append_singleton last rest.dropLast).symm.filter _
          · next hopen =>
              rw [List.filter_cons_of_pos (by simpa using hopen)]
              exact (ih (by omega)).cons slot

theorem clean_inv (hinv : Inv s) :
    Inv { s with slots := cleanFds s.slots, position := .poll } := by
  have hperm := cleanLoop_perm (le_refl s.slots.length)
  have hcount : ∀ p : Slot → Bool, (∀ slot, slot.client = none → p slot = false) →
      (cleanFds s.slots).countP p = s.slots.countP p := by
    intro p hp
    rw [cleanFds, hperm.countP_eq, List.countP_filter]
    refine List.countP_congr fun slot hslot => ?_
    rcases (hinv.slots slot hslot).2 with ⟨-, hnone⟩ | ⟨hfd, -⟩
    · simp [hp slot hnone]
    · have hopen : slot.fd ≠ -1 := by omega
      simp [hopen]
  refine ⟨fun d => ?_, fun slot hslot => ?_⟩
  · have hholds : ∀ slot : Slot, slot.client = none → slot.holds d = false := by
      intro slot hnone
      simp [Slot.holds, hnone]
    have hlife : State.life { s with slots := cleanFds s.slots, position := .poll } d = s.life d := by
      ext1 <;> try rfl
      · exact hcount _ hholds
      · exact hcount _ fun slot hnone => listens_eq_false (hholds slot hnone)
    exact hlife ▸ hinv.life d
  · exact hinv.slots slot (List.mem_of_mem_filter (hperm.subset hslot))

/-! ## All runs -/

theorem incoming_inv (hinv : Inv s) (h : incoming s = some s') : Inv s' := by
  unfold incoming at h
  split at h
  · split at h
    · cases h
      exact ⟨hinv.life, hinv.slots⟩
    · next slot hi =>
        split at h
        · cases h
          exact ⟨hinv.life, hinv.slots⟩
        · obtain ⟨t, ht, h⟩ := Option.bind_eq_some_iff.1 h
          cases h
          have hafter := rehearSlot_inv hinv hi ht
          exact ⟨hafter.life, hafter.slots⟩
  · split at h
    · cases h
    · next slot hi =>
        obtain ⟨t, ht, h⟩ := Option.bind_eq_some_iff.1 h
        cases h
        have hafter := reactSlot_inv hinv hi ht
        exact ⟨hafter.life, hafter.slots⟩
  · cases h

theorem step_inv {e : Event} (hinv : Inv s) (h : step s e = some s') : Inv s' := by
  -- One case for each step of the main thread, and one for each step of a handler.
  cases e with
  | poll ready revents =>
      dsimp only [step] at h
      split at h
      · next hguard =>
          cases h
          exact poll_inv hinv hguard.2
      · cases h
  | interrupted =>
      dsimp only [step] at h
      split at h
      · cases h
        exact poll_inv hinv (allowed_zero s.slots)
      · cases h
  | accept socket connKey =>
      dsimp only [step] at h
      split at h
      · next hguard =>
          obtain ⟨t, ht, h⟩ := Option.bind_eq_some_iff.1 h
          cases h
          have hafter := accept_inv hinv hguard.2.2.1 hguard.2.2.2 ht
          exact ⟨hafter.life, hafter.slots⟩
      · cases h
  | noConnection =>
      dsimp only [step] at h
      split at h
      · cases h
        exact ⟨hinv.life, hinv.slots⟩
      · cases h
  | incoming => exact incoming_inv hinv h
  | clean =>
      dsimp only [step] at h
      split at h
      · cases h
        exact clean_inv hinv
      · cases h
  | request j =>
      obtain ⟨hd, hj, h⟩ := Option.bind_eq_some_iff.1 h
      obtain ⟨x, hread, h⟩ := Option.bind_eq_some_iff.1 h
      split at h
      · next hphase =>
          cases h
          exact request_inv hinv hj hphase
      · cases h
  | setCanRehear j =>
      obtain ⟨hd, hj, h⟩ := Option.bind_eq_some_iff.1 h
      obtain ⟨x, hread, h⟩ := Option.bind_eq_some_iff.1 h
      split at h
      · next hphase =>
          cases h
          exact setCanRehear_inv hinv hj hread hphase
      · cases h
  | decRef j =>
      obtain ⟨hd, hj, h⟩ := Option.bind_eq_some_iff.1 h
      split at h
      · next hphase =>
          obtain ⟨t, ht, h⟩ := Option.bind_eq_some_iff.1 h
          obtain ⟨x, hdrop⟩ := clientDecRef_drops ht
          cases h
          exact release_inv hinv hj hphase hdrop
      · cases h

/-- The step relation of the program: a step that is possible, and follows no dangling client. -/
def Step (s : State) (e : Event) (s' : State) : Prop := step s e = some s'

/-- The slots and the threads that use a client. -/
def State.users (s : State) (c : Addr) : Nat := s.held c + s.pending c

/-- The count is the number of users, a client is deleted with its last user and only then, and no two
threads work on requests of one client. -/
theorem client_lifetime {h : History State Event} (hrun : Run Step State.init h s) (c : Addr) :
    (∀ x, s.heap.read c = some x → x.refCount = s.users c) ∧
      (c ∈ s.deleted ↔ c < s.heap.fresh ∧ s.users c = 0) ∧ s.deleted.count c ≤ 1 ∧
      (0 < s.users c → ∃ x, s.heap.read c = some x) ∧ s.active c ≤ 1 := by
  have hinv : Inv s := hrun.invariant inv_init fun hi hs => step_inv hi hs
  have hok := hinv.life c
  have hdeletions : (s.life c).deletions = s.deleted.count c := rfl
  have husers : (s.life c).users = s.users c := rfl
  have hactive : (s.life c).active = s.active c := rfl
  cases hread : s.heap.read c with
  | some x =>
      obtain ⟨hcreated, hnone, hcount, hpos, hone⟩ := hok.live hread
      refine ⟨fun y hy => ?_, ⟨fun hmem => ?_, fun hgone => ?_⟩, ?_, fun _ => ⟨x, rfl⟩, ?_⟩
      · cases hy
        exact hcount
      · have := List.count_pos_iff.2 hmem
        omega
      · omega
      · omega
      · omega
  | none =>
      obtain ⟨hzero, hnoactive, -, hcreated⟩ := hok.gone hread
      have htoNat : (s.life c).created.toNat = if c < s.heap.fresh then 1 else 0 := by
        by_cases hlt : c < s.heap.fresh <;> simp [State.life, hlt]
      rw [htoNat] at hcreated
      refine ⟨fun y hy => (by cases hy), ⟨fun hmem => ?_, fun hgone => ?_⟩, ?_, fun hpos => ?_, ?_⟩
      · have := List.count_pos_iff.2 hmem
        refine ⟨?_, by omega⟩
        by_contra hlt
        rw [if_neg hlt] at hcreated
        omega
      · rw [if_pos hgone.1] at hcreated
        exact List.count_pos_iff.1 (by omega)
      · split at hcreated <;> omega
      · omega
      · omega

/-- A client that hangs up while its request is running: its thread deletes it. -/
def hangupSession : List Event :=
  [.poll true [], .accept 5 "127.0.0.1:4000".toList, .incoming, .incoming, .incoming, .clean,
    .poll false [{ pollin := true }], .noConnection, .incoming, .incoming, .incoming, .clean,
    .request 0, .poll false [{ pollrdhup := true }], .noConnection, .incoming, .setCanRehear 0, .incoming,
    .incoming, .clean, .decRef 0]

theorem client_lifetime_hangup : ∃ h s, Run Step State.init h s ∧ s.deleted = [0] ∧ s.slots = [] ∧
    s.deleted.count 0 ≤ 1 ∧ s.active 0 ≤ 1 := by
  obtain ⟨h, s, hrun, hdeleted, hslots⟩ : ∃ h s, Run Step State.init h s ∧ s.deleted = [0] ∧
      s.slots = [] :=
    Run.exists_of_replay id hangupSession
      (P := fun _ (s : State) => s.deleted = [0] ∧ s.slots = [])
      (by decide +kernel)
  obtain ⟨-, -, honce, -, hone⟩ := client_lifetime hrun 0
  exact ⟨h, s, hrun, hdeleted, hslots, honce, hone⟩

end Network
end CTracker
end Raiezau
