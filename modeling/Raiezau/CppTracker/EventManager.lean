import Mathlib.Data.Fintype.Card
import Raiezau.CppTracker.State
import Raiezau.Machine.Run
import Raiezau.CUtil.LinkedList

/-!
# EventManager — the books of the main loop

The map of the registered events, their count and the events to delete, over an explicit heap of the events.  A peer
owns the event of its writer, and its destructor unregisters that; the peer itself is deleted at the end of a batch.
What a handler finds on the network is an input of the step.  Descriptors are the kernel's to choose, among those that
are not open.
-/

namespace Raiezau
namespace CppTracker
namespace EventManager

open Machine Memory Assoc CUtil

/-! ## Data -/

/-- What `accept` and `dup` return: an `int` that is not negative. -/
abbrev Fd := Fin (2 ^ 31)

/-- The classes derived from `Event`. -/
inductive Kind
  | listener
  | peer (sockWriter : Option Addr)
  | writer
  deriving DecidableEq, Repr

def Kind.sockWriter : Kind → Option Addr
  | .peer w => w
  | _ => none

structure Event where
  fd : Fd
  autoDelete : Bool
  kind : Kind
  deriving DecidableEq, Repr

/-- Where the main loop stands: before `epoll_wait`, at the results that are still to be handled, or behind its end. -/
inductive Phase
  | waiting
  | handling (fds : List Fd)
  | exited
  deriving DecidableEq, Repr

/-- `unregistered` are the events of the calls of `unregisterEvent`, latest first. -/
structure State where
  objects : Heap Event
  events : Table Fd Addr
  eventCount : Nat
  deleteSet : PtrSet
  unregistered : List Addr
  phase : Phase
  deriving DecidableEq, Repr

/-- The descriptors that are open: an event closes its own when it is deleted. -/
def State.descriptors (s : State) : List Fd := s.objects.live.map Event.fd

def State.sockWriter (s : State) (a : Addr) : Option Addr :=
  (s.objects.read a).bind fun ev => ev.kind.sockWriter

/-! ## Registration -/

def registerEvent (s : State) (a : Addr) : Option State := do
  let ev ← s.objects.read a
  some { s with events := s.events.insertNew ev.fd a, eventCount := u32 (s.eventCount + 1) }

def unregisterEvent (s : State) (a : Addr) : Option State := do
  let ev ← s.objects.read a
  some { s with
    events := s.events.erase ev.fd
    deleteSet := if ev.autoDelete then s.deleteSet.insert a else s.deleteSet
    eventCount := u32 (s.eventCount + (2 ^ 32 - 1))
    unregistered := a :: s.unregistered }

/-! ## Handlers -/

/-- What a handler is given: the connections that are accepted; whether a peer answers, with the descriptor that `dup`
returns if its writer is made then. -/
inductive Act
  | accept (fds : List Fd)
  | read (written : Option Fd)
  | flush
  deriving DecidableEq, Repr

/-- The descriptors that a handler opens. -/
def opened : Kind → Act → List Fd
  | .listener, .accept fds => fds
  | .peer none, .read (some fd) => [fd]
  | _, _ => []

/-- `p2pListener::acceptHandler`. -/
def acceptHandler (s : State) : List Fd → Option State
  | [] => some s
  | fd :: fds => do
      let peer := s.objects.fresh
      let s ← registerEvent
        { s with objects := s.objects.alloc { fd := fd, autoDelete := true, kind := .peer none } } peer
      acceptHandler s fds

/-- `ClientSocket::write`, as far as the manager sees of it. -/
def write (s : State) (peer : Addr) (fd : Fd) : Option State := do
  let ev ← s.objects.read peer
  match ev.kind with
  | .peer none =>
      let sockWriter := s.objects.fresh
      let objects := s.objects.alloc { fd := fd, autoDelete := false, kind := .writer }
      registerEvent
        { s with objects := objects.modify peer fun ev => { ev with kind := .peer (some sockWriter) } } sockWriter
  | _ => some s

def eventHandler (s : State) (a : Addr) : Kind → Act → Option State
  | .listener, .accept fds => acceptHandler s fds
  | .peer _, .read none => some s
  | .peer _, .read (some fd) => write s a fd
  | .writer, .flush => some s
  | _, _ => none

/-! ## The loop -/

/-- `delete`, which runs `~ClientSocket` for a peer. -/
def destroy (s : State) (a : Addr) : Option State := do
  let ev ← s.objects.read a
  let s ←
    match ev.kind.sockWriter with
    | some writer => do
        let s ← unregisterEvent s writer
        some { s with objects := s.objects.free writer }
    | none => some s
  some { s with objects := s.objects.free a, deleteSet := s.deleteSet.erase a }

/-- The results of `epoll_wait`; one of them with the handler of its event, or with none registered any more; one
turn of `cleanDeleteList`, where the pointers are ordered as the allocator placed them; the end of a round. -/
inductive Label
  | wait (fds : List Fd)
  | handle (act : Act) (ok : Bool)
  | skip
  | delete (a : Addr)
  | test
  deriving DecidableEq, Repr

def step (s : State) : Label → Option State
  | .wait fds => if s.phase = .waiting then some { s with phase := .handling fds } else none
  | .handle act ok =>
      match s.phase with
      | .handling (fd :: fds) => do
          let a ← s.events.lookup fd
          let ev ← s.objects.read a
          if (opened ev.kind act ++ s.descriptors).Nodup then
            let s ← eventHandler { s with phase := .handling fds } a ev.kind act
            if ok then some s else unregisterEvent s a
          else none
      | _ => none
  | .skip =>
      match s.phase with
      | .handling (fd :: fds) => if s.events.lookup fd = none then some { s with phase := .handling fds } else none
      | _ => none
  | .delete a => if s.phase = .handling [] ∧ a ∈ s.deleteSet then destroy s a else none
  | .test =>
      if s.phase = .handling [] ∧ s.deleteSet = [] then
        some { s with phase := if s.eventCount = 0 then .exited else .waiting }
      else none

def Step (s : State) (l : Label) (s' : State) : Prop := step s l = some s'

/-- `main` has registered the listener. -/
def State.init (fd : Fd) : State :=
  { objects := Heap.empty.alloc { fd := fd, autoDelete := false, kind := .listener }
    events := [(fd, 0)]
    eventCount := 1
    deleteSet := []
    unregistered := []
    phase := .waiting }

/-! ## The books -/

/-- The count is that of the entries, an entry leads to its event, no event is unregistered twice, and the loop ends
when no event is registered. -/
structure Booked (_ : History State Label) (s : State) : Prop where
  count : s.eventCount = s.events.length
  entry : ∀ e ∈ s.events, ∃ ev, s.objects.read e.2 = some ev ∧ ev.fd = e.1
  registered : ∀ a ev, s.objects.read a = some ev → ((ev.fd, a) ∈ s.events ↔ a ∉ s.unregistered)
  once : s.unregistered.Nodup
  exit : s.phase = .exited → s.events = []
  stay : s.phase = .waiting → s.events ≠ []

/-- No peer is deleted whose writer was unregistered before. -/
def WriterRegistered (_ : History State Label) (s : State) : Label → Prop
  | .delete a => ∀ w ∈ s.sockWriter a, w ∉ s.unregistered
  | _ => True

instance (h : History State Label) (s : State) : ∀ l, Decidable (WriterRegistered h s l)
  | .delete a => inferInstanceAs (Decidable (∀ w ∈ s.sockWriter a, w ∉ s.unregistered))
  | .wait _ => .isTrue trivial
  | .handle _ _ => .isTrue trivial
  | .skip => .isTrue trivial
  | .test => .isTrue trivial

variable {h h' : History State Label} {s s' : State} {a b : Addr} {x : Event}

theorem mem_descriptors_iff {fd : Fd} : fd ∈ s.descriptors ↔ ∃ a ev, s.objects.read a = some ev ∧ ev.fd = fd := by
  simp only [State.descriptors, List.mem_map, Heap.mem_live_iff]
  constructor
  · rintro ⟨ev, ⟨a, hread⟩, hfd⟩
    exact ⟨a, ev, hread, hfd⟩
  · rintro ⟨a, ev, hread, hfd⟩
    exact ⟨ev, ⟨a, hread⟩, hfd⟩

/-! ## Invariant -/

/-- An event is registered until it is unregistered; what is to be deleted are unregistered peers; a writer is owned by
one peer. -/
structure Inv (s : State) : Prop where
  unique : s.events.UniqueKeys
  distinct : ∀ {a b x y}, s.objects.read a = some x → s.objects.read b = some y → x.fd = y.fd → a = b
  entry_iff : ∀ {fd a}, (fd, a) ∈ s.events ↔ ∃ ev, s.objects.read a = some ev ∧ ev.fd = fd ∧ a ∉ s.unregistered
  count : s.eventCount = s.events.length
  once : s.unregistered.Nodup
  known : ∀ a ∈ s.unregistered, a < s.objects.fresh
  auto_iff : ∀ {a ev}, s.objects.read a = some ev → (ev.autoDelete = true ↔ ∃ w, ev.kind = .peer w)
  owned : ∀ {a ev w}, s.objects.read a = some ev → ev.kind = .peer (some w) →
    ∃ x, s.objects.read w = some x ∧ x.kind = .writer
  owner : ∀ {a b x y w}, s.objects.read a = some x → s.objects.read b = some y → x.kind = .peer (some w) →
    y.kind = .peer (some w) → a = b
  doomed : ∀ a ∈ s.deleteSet, a ∈ s.unregistered ∧ ∃ ev w, s.objects.read a = some ev ∧ ev.kind = .peer w
  nodup : s.deleteSet.Nodup

/-- There are no more entries than descriptors, so the count does not wrap. -/
theorem Inv.length_le (hi : Inv s) : s.events.length ≤ 2 ^ 31 := by
  have hcard := hi.unique.length_le_card
  rwa [Table.keys, List.length_map, Fintype.card_fin] at hcard

theorem Inv.entry (hi : Inv s) (hx : s.objects.read a = some x) (ha : a ∉ s.unregistered) : (x.fd, a) ∈ s.events :=
  hi.entry_iff.2 ⟨x, hx, rfl, ha⟩

theorem Inv.lookup_of_closed (hi : Inv s) {fd : Fd} (hfd : fd ∉ s.descriptors) : s.events.lookup fd = none := by
  cases hlook : s.events.lookup fd with
  | none => rfl
  | some a =>
      obtain ⟨ev, hread, hev, -⟩ := hi.entry_iff.1 (Table.mem_of_lookup hlook)
      exact absurd (mem_descriptors_iff.2 ⟨a, ev, hread, hev⟩) hfd

/-! ## Registering -/

/-- A new event with a descriptor of its own is registered. -/
theorem Inv.register (hi : Inv s) (x : Event) (hfd : x.fd ∉ s.descriptors) (hkind : x.kind.sockWriter = none)
    (hauto : x.autoDelete = true ↔ ∃ w, x.kind = .peer w) :
    Inv { s with
      objects := s.objects.alloc x
      events := s.events.insertNew x.fd s.objects.fresh
      eventCount := u32 (s.eventCount + 1) } := by
  have hnone := hi.lookup_of_closed hfd
  have hfresh : s.objects.fresh ∉ s.unregistered := fun hmem => Nat.lt_irrefl _ (hi.known _ hmem)
  have hclosed : ∀ {a ev}, s.objects.read a = some ev → ev.fd ≠ x.fd := fun hread heq =>
    hfd (mem_descriptors_iff.2 ⟨_, _, hread, heq⟩)
  have hold : ∀ {a ev}, s.objects.read a = some ev → (s.objects.alloc x).read a = some ev := Heap.read_alloc_of_read
  -- an event that is there afterwards is the new one, or was there before
  have hcases : ∀ {a ev}, (s.objects.alloc x).read a = some ev →
      (a = s.objects.fresh ∧ ev = x) ∨ s.objects.read a = some ev := by
    intro a ev hread
    rw [Heap.read_alloc] at hread
    split at hread
    · next ha => exact .inl ⟨ha, (Option.some.inj hread).symm⟩
    · exact .inr hread
  have hpeer : ∀ {w}, x.kind ≠ .peer (some w) := by
    intro w heq
    rw [heq] at hkind
    cases hkind
  exact
    { unique := hi.unique.insertNew _ _
      distinct := by
        intro a b y z ha hb heq
        rcases hcases ha with ⟨rfl, rfl⟩ | ha'
        · rcases hcases hb with ⟨rfl, rfl⟩ | hb'
          · rfl
          · exact absurd heq.symm (hclosed hb')
        · rcases hcases hb with ⟨rfl, rfl⟩ | hb'
          · exact absurd heq (hclosed ha')
          · exact hi.distinct ha' hb' heq
      entry_iff := by
        intro fd a
        rw [Table.mem_insertNew_iff, Prod.mk.injEq]
        constructor
        · rintro (hmem | ⟨⟨rfl, rfl⟩, -⟩)
          · obtain ⟨ev, hread, hev, hun⟩ := hi.entry_iff.1 hmem
            exact ⟨ev, hold hread, hev, hun⟩
          · exact ⟨x, Heap.read_alloc_fresh _ _, rfl, hfresh⟩
        · rintro ⟨ev, hread, rfl, hun⟩
          rcases hcases hread with ⟨rfl, rfl⟩ | hread
          · exact .inr ⟨⟨rfl, rfl⟩, hnone⟩
          · exact .inl (hi.entry hread hun)
      count := by
        have hle := hi.length_le
        rw [Table.insertNew_of_none hnone, List.length_append, hi.count]
        exact Nat.mod_eq_of_lt (by simp; omega)
      once := hi.once
      known := fun a ha => by
        rw [Heap.fresh_alloc]
        exact Nat.lt_succ_of_lt (hi.known a ha)
      auto_iff := by
        intro a ev hread
        rcases hcases hread with ⟨-, rfl⟩ | hread
        · exact hauto
        · exact hi.auto_iff hread
      owned := by
        intro a ev w hread hev
        rcases hcases hread with ⟨-, rfl⟩ | hread
        · exact absurd hev hpeer
        · obtain ⟨y, hw, hy⟩ := hi.owned hread hev
          exact ⟨y, hold hw, hy⟩
      owner := by
        intro a b y z w ha hb hy hz
        rcases hcases ha with ⟨-, rfl⟩ | ha
        · exact absurd hy hpeer
        · rcases hcases hb with ⟨-, rfl⟩ | hb
          · exact absurd hz hpeer
          · exact hi.owner ha hb hy hz
      doomed := fun a ha => by
        obtain ⟨hun, ev, w, hread, hev⟩ := hi.doomed a ha
        exact ⟨hun, ev, w, hold hread, hev⟩
      nodup := hi.nodup }

/-- A writer that nobody owns is given to a peer without one. -/
theorem Inv.own {w : Addr} (hi : Inv s) (hx : s.objects.read a = some x) (hkind : x.kind = .peer none)
    {y : Event} (hw : s.objects.read w = some y) (hy : y.kind = .writer)
    (hfree : ∀ b z, s.objects.read b = some z → z.kind ≠ .peer (some w)) :
    Inv { s with objects := s.objects.modify a fun ev => { ev with kind := .peer (some w) } } := by
  have hcases : ∀ {b ev}, (s.objects.modify a fun ev => { ev with kind := .peer (some w) }).read b = some ev →
      (b = a ∧ ev = { x with kind := .peer (some w) }) ∨ (b ≠ a ∧ s.objects.read b = some ev) := by
    intro b ev hread
    rw [Heap.read_modify] at hread
    -- The peer has got the writer, and everything else is as it was.
    split at hread
    · next hb =>
        rw [hb, hx] at hread
        exact .inl ⟨hb, (Option.some.inj hread).symm⟩
    · next hb => exact .inr ⟨hb, hread⟩
  have hself : (s.objects.modify a fun ev => { ev with kind := .peer (some w) }).read a =
      some { x with kind := .peer (some w) } := by
    rw [Heap.read_modify, if_pos rfl, hx]
    rfl
  have hother : ∀ {b ev}, b ≠ a → s.objects.read b = some ev →
      (s.objects.modify a fun ev => { ev with kind := .peer (some w) }).read b = some ev := by
    intro b ev hb hread
    rw [Heap.read_modify, if_neg hb, hread]
  exact
    { unique := hi.unique
      distinct := by
        intro b c y z hb hc heq
        rcases hcases hb with ⟨rfl, rfl⟩ | ⟨-, hb'⟩
        · rcases hcases hc with ⟨rfl, rfl⟩ | ⟨-, hc'⟩
          · rfl
          · exact hi.distinct hx hc' heq
        · rcases hcases hc with ⟨rfl, rfl⟩ | ⟨-, hc'⟩
          · exact hi.distinct hb' hx heq
          · exact hi.distinct hb' hc' heq
      entry_iff := by
        intro fd b
        refine hi.entry_iff.trans ⟨?_, ?_⟩
        · rintro ⟨ev, hread, hfd, hun⟩
          by_cases hb : b = a
          · subst hb
            obtain rfl := Option.some.inj (hread.symm.trans hx)
            exact ⟨_, hself, hfd, hun⟩
          · exact ⟨ev, hother hb hread, hfd, hun⟩
        · rintro ⟨ev, hread, hfd, hun⟩
          rcases hcases hread with ⟨rfl, rfl⟩ | ⟨-, hread'⟩
          · exact ⟨x, hx, hfd, hun⟩
          · exact ⟨ev, hread', hfd, hun⟩
      count := hi.count
      once := hi.once
      known := fun b hb => by
        rw [Heap.fresh_modify]
        exact hi.known b hb
      auto_iff := by
        intro b ev hread
        rcases hcases hread with ⟨rfl, rfl⟩ | ⟨-, hread'⟩
        · exact iff_of_true ((hi.auto_iff hx).2 ⟨none, hkind⟩) ⟨some w, rfl⟩
        · exact hi.auto_iff hread'
      owned := by
        intro b ev v hread hev
        have hwriter : ∃ z, s.objects.read v = some z ∧ z.kind = .writer := by
          rcases hcases hread with ⟨rfl, rfl⟩ | ⟨-, hread'⟩
          · cases hev
            exact ⟨y, hw, hy⟩
          · exact hi.owned hread' hev
        obtain ⟨z, hv, hz⟩ := hwriter
        have hva : v ≠ a := by
          rintro rfl
          obtain rfl := Option.some.inj (hv.symm.trans hx)
          rw [hkind] at hz
          cases hz
        exact ⟨z, hother hva hv, hz⟩
      owner := by
        intro b c y z v hb hc hy' hz
        rcases hcases hb with ⟨rfl, rfl⟩ | ⟨-, hb'⟩
        · rcases hcases hc with ⟨rfl, -⟩ | ⟨-, hc'⟩
          · rfl
          · cases hy'
            exact absurd hz (hfree c z hc')
        · rcases hcases hc with ⟨rfl, rfl⟩ | ⟨-, hc'⟩
          · cases hz
            exact absurd hy' (hfree b y hb')
          · exact hi.owner hb' hc' hy' hz
      doomed := fun b hb => by
        obtain ⟨hun, ev, v, hread, hev⟩ := hi.doomed b hb
        refine ⟨hun, ?_⟩
        by_cases hba : b = a
        · subst hba
          exact ⟨_, some w, hself, rfl⟩
        · exact ⟨ev, v, hother hba hread, hev⟩
      nodup := hi.nodup }

/-! ## Unregistering -/

theorem Inv.unregister (hi : Inv s) (hx : s.objects.read a = some x) (ha : a ∉ s.unregistered) :
    Inv { s with
      events := s.events.erase x.fd
      deleteSet := if x.autoDelete then s.deleteSet.insert a else s.deleteSet
      eventCount := u32 (s.eventCount + (2 ^ 32 - 1))
      unregistered := a :: s.unregistered } := by
  have hentry := hi.entry hx ha
  have hnew : ∀ b ∈ (if x.autoDelete then s.deleteSet.insert a else s.deleteSet),
      (b = a ∧ x.autoDelete = true) ∨ b ∈ s.deleteSet := by
    intro b hb
    split at hb
    · next hauto => exact (PtrSet.mem_insert.1 hb).imp_left fun hba => ⟨hba, hauto⟩
    · exact .inr hb
  exact
    { unique := hi.unique.erase _
      distinct := hi.distinct
      entry_iff := by
        intro fd b
        rw [Table.mem_erase_iff hi.unique, hi.entry_iff]
        constructor
        · rintro ⟨⟨ev, hread, hfd, hun⟩, hne⟩
          refine ⟨ev, hread, hfd, List.not_mem_cons_of_ne_of_not_mem ?_ hun⟩
          rintro rfl
          obtain rfl := Option.some.inj (hread.symm.trans hx)
          exact hne hfd.symm
        · rintro ⟨ev, hread, rfl, hun⟩
          have hne := List.ne_of_not_mem_cons hun
          exact ⟨⟨ev, hread, rfl, List.not_mem_of_not_mem_cons hun⟩, fun heq => hne (hi.distinct hread hx heq)⟩
      count := by
        have hle := hi.length_le
        have hlen := Table.length_erase hentry
        show u32 (s.eventCount + (2 ^ 32 - 1)) = (s.events.erase x.fd).length
        rw [hi.count, ← hlen, Nat.add_assoc, show 1 + (2 ^ 32 - 1) = 2 ^ 32 from rfl, u32, Nat.add_mod_right]
        exact Nat.mod_eq_of_lt (by omega)
      once := List.nodup_cons.2 ⟨ha, hi.once⟩
      known := fun b hb => by
        rcases List.mem_cons.1 hb with rfl | hb
        · exact Heap.lt_fresh_of_read hx
        · exact hi.known b hb
      auto_iff := hi.auto_iff
      owned := hi.owned
      owner := hi.owner
      doomed := fun b hb => by
        rcases hnew b hb with ⟨rfl, hauto⟩ | hb
        · obtain ⟨w, hw⟩ := (hi.auto_iff hx).1 hauto
          exact ⟨List.mem_cons_self, x, w, hx, hw⟩
        · obtain ⟨hun, hlive⟩ := hi.doomed b hb
          exact ⟨List.mem_cons_of_mem _ hun, hlive⟩
      nodup := by
        split
        · exact PtrSet.nodup_insert hi.nodup
        · exact hi.nodup }

/-! ## Deleting -/

/-- An unregistered event is deleted that nobody owns. -/
theorem Inv.delete (hi : Inv s) (ha : a ∈ s.unregistered)
    (hfree : ∀ b z, s.objects.read b = some z → z.kind ≠ .peer (some a)) :
    Inv { s with objects := s.objects.free a, deleteSet := s.deleteSet.erase a } := by
  have hcases : ∀ {b ev}, (s.objects.free a).read b = some ev → b ≠ a ∧ s.objects.read b = some ev := by
    intro b ev hread
    rw [Heap.read_free] at hread
    split at hread
    · cases hread
    · next hb => exact ⟨hb, hread⟩
  have hother : ∀ {b ev}, b ≠ a → s.objects.read b = some ev → (s.objects.free a).read b = some ev := by
    intro b ev hb hread
    rw [Heap.read_free, if_neg hb, hread]
  exact
    { unique := hi.unique
      distinct := fun hb hc heq => hi.distinct (hcases hb).2 (hcases hc).2 heq
      entry_iff := by
        intro fd b
        refine hi.entry_iff.trans ⟨?_, ?_⟩
        · rintro ⟨ev, hread, hfd, hun⟩
          have hba : b ≠ a := fun heq => hun (heq ▸ ha)
          exact ⟨ev, hother hba hread, hfd, hun⟩
        · rintro ⟨ev, hread, hfd, hun⟩
          exact ⟨ev, (hcases hread).2, hfd, hun⟩
      count := hi.count
      once := hi.once
      known := fun b hb => by
        rw [Heap.fresh_free]
        exact hi.known b hb
      auto_iff := fun hread => hi.auto_iff (hcases hread).2
      owned := by
        intro b ev w hread hev
        obtain ⟨z, hw, hz⟩ := hi.owned (hcases hread).2 hev
        have hwa : w ≠ a := by
          rintro rfl
          exact hfree b ev (hcases hread).2 hev
        exact ⟨z, hother hwa hw, hz⟩
      owner := fun hb hc hy hz => hi.owner (hcases hb).2 (hcases hc).2 hy hz
      doomed := fun b hb => by
        obtain ⟨hba, hb⟩ := hi.nodup.mem_erase_iff.1 hb
        obtain ⟨hun, ev, w, hread, hev⟩ := hi.doomed b hb
        exact ⟨hun, ev, w, hother hba hread, hev⟩
      nodup := hi.nodup.erase a }

/-- Whatever is to be deleted is owned by nobody. -/
theorem Inv.not_owned (hi : Inv s) (ha : a ∈ s.deleteSet) (b : Addr) (z : Event) (hb : s.objects.read b = some z) :
    z.kind ≠ .peer (some a) := by
  intro hz
  obtain ⟨-, x, w, hx, hpeer⟩ := hi.doomed a ha
  obtain ⟨y, hy, hwriter⟩ := hi.owned hb hz
  obtain rfl := Option.some.inj (hx.symm.trans hy)
  rw [hpeer] at hwriter
  cases hwriter

theorem sockWriter_eq_some_iff {w : Addr} :
    s.sockWriter a = some w ↔ ∃ x, s.objects.read a = some x ∧ x.kind = .peer (some w) := by
  rw [State.sockWriter, Option.bind_eq_some_iff]
  refine exists_congr fun x => and_congr_right fun _ => ?_
  cases x.kind <;> simp [Kind.sockWriter]

/-- A peer takes its writer with it; the books are kept if the writer is registered then, and it is unregistered a
second time if it is not. -/
theorem Inv.destroy (hi : Inv s) (ha : a ∈ s.deleteSet) (hstep : destroy s a = some s') :
    s'.phase = s.phase ∧ (s'.unregistered.Nodup ↔ ∀ w ∈ s.sockWriter a, w ∉ s.unregistered) ∧
      ((∀ w ∈ s.sockWriter a, w ∉ s.unregistered) → Inv s') := by
  obtain ⟨hun, x, o, hx, hpeer⟩ := hi.doomed a ha
  have hfree := hi.not_owned ha
  unfold EventManager.destroy at hstep
  cases o with
  | none =>
      have hnone : s.sockWriter a = none := by
        rw [State.sockWriter, hx, Option.bind_some, hpeer]
        rfl
      simp only [hx, hpeer, Kind.sockWriter, Option.bind_eq_bind, Option.bind_some] at hstep
      cases hstep
      have hall : ∀ w ∈ s.sockWriter a, w ∉ s.unregistered := by
        rw [hnone]
        rintro w ⟨⟩
      exact ⟨rfl, iff_of_true hi.once hall, fun _ => hi.delete hun hfree⟩
  | some w =>
      have hsome : s.sockWriter a = some w := sockWriter_eq_some_iff.2 ⟨x, hx, hpeer⟩
      obtain ⟨y, hy, hwriter⟩ := hi.owned hx hpeer
      have hmanual : y.autoDelete = false := by
        cases hauto : y.autoDelete with
        | false => rfl
        | true =>
            obtain ⟨v, hv⟩ := (hi.auto_iff hy).1 hauto
            rw [hwriter] at hv
            cases hv
      simp only [hx, hy, hpeer, hmanual, Kind.sockWriter, unregisterEvent, Option.bind_eq_bind, Option.bind_some] at hstep
      cases hstep
      have hiff : (∀ v ∈ s.sockWriter a, v ∉ s.unregistered) ↔ w ∉ s.unregistered := by
        rw [hsome]
        exact ⟨fun hall => hall w rfl, fun hw v hv => Option.some.inj hv ▸ hw⟩
      rw [hiff]
      refine ⟨rfl, (List.nodup_cons.trans (and_iff_left hi.once)), fun hw => ?_⟩
      have hi₁ := hi.unregister hy hw
      rw [hmanual] at hi₁
      have hi₂ := hi₁.delete (List.mem_cons_of_mem w hun) hfree
      have hwa : w ≠ a := by
        rintro rfl
        obtain rfl := Option.some.inj (hx.symm.trans hy)
        rw [hpeer] at hwriter
        cases hwriter
      -- the peer was the only owner of the writer
      have hi₃ := hi₂.delete List.mem_cons_self fun b z hb hz => by
        have hb : (s.objects.free a).read b = some z := hb
        rw [Heap.read_free] at hb
        split at hb
        · cases hb
        · next hba => exact hba (hi.owner hb hx hz hpeer)
      have hkept : w ∉ s.deleteSet.erase a := fun hmem =>
        hi.not_owned (List.mem_of_mem_erase hmem) a x hx hpeer
      have hsame : (s.deleteSet.erase a).erase w = s.deleteSet.erase a := List.erase_of_not_mem hkept
      have hi₃ : Inv { s with
          objects := (s.objects.free a).free w
          events := s.events.erase y.fd
          eventCount := u32 (s.eventCount + (2 ^ 32 - 1))
          deleteSet := (s.deleteSet.erase a).erase w
          unregistered := w :: s.unregistered } := hi₃
      rw [hsame, Heap.free_comm _ (Ne.symm hwa)] at hi₃
      exact hi₃

/-! ## Handlers -/

/-- The descriptor that is taken is one of those that are open then. -/
theorem nodup_opened {fds : List Fd} {x : Event} (hnodup : (x.fd :: fds ++ s.descriptors).Nodup) :
    x.fd ∉ s.descriptors ∧ (fds ++ State.descriptors { s with objects := s.objects.alloc x }).Nodup := by
  rw [List.cons_append, List.nodup_cons] at hnodup
  obtain ⟨hnot, hrest⟩ := hnodup
  refine ⟨fun hmem => hnot (List.mem_append_right _ hmem), ?_⟩
  rw [State.descriptors, Heap.live_alloc, List.map_append, ← List.append_assoc]
  refine List.nodup_append.2 ⟨hrest, List.nodup_singleton _, ?_⟩
  rintro fd' hmem _ hsingle rfl
  rw [List.mem_singleton.1 hsingle] at hmem
  exact hnot hmem

theorem Inv.acceptHandler {fds : List Fd} (hi : Inv s) (hnodup : (fds ++ s.descriptors).Nodup)
    (hstep : acceptHandler s fds = some s') :
    Inv s' ∧ s'.phase = s.phase ∧ s'.unregistered = s.unregistered := by
  -- One peer for each connection, and each has a descriptor of its own.
  induction fds generalizing s with
  | nil =>
      cases hstep
      exact ⟨hi, rfl, rfl⟩
  | cons fd fds ih =>
      obtain ⟨hfd, hrest⟩ := @nodup_opened s fds { fd := fd, autoDelete := true, kind := .peer none } hnodup
      have hi₁ := hi.register { fd := fd, autoDelete := true, kind := .peer none } hfd rfl
        (iff_of_true rfl ⟨none, rfl⟩)
      simp only [EventManager.acceptHandler, registerEvent, Heap.read_alloc_fresh, Option.bind_eq_bind,
        Option.bind_some] at hstep
      have hkept := ih hi₁ hrest hstep
      exact hkept

/-- A peer that answers for the first time registers its writer. -/
theorem Inv.write {fd : Fd} (hi : Inv s) (hx : s.objects.read a = some x)
    (hnodup : (opened x.kind (.read (some fd)) ++ s.descriptors).Nodup) (hstep : write s a fd = some s') :
    Inv s' ∧ s'.phase = s.phase ∧ s'.unregistered = s.unregistered := by
  unfold EventManager.write at hstep
  simp only [hx, Option.bind_eq_bind, Option.bind_some] at hstep
  split at hstep
  · next hkind =>
      rw [hkind] at hnodup
      obtain ⟨hfd, -⟩ := @nodup_opened s [] { fd := fd, autoDelete := false, kind := .writer } hnodup
      have hi₁ := hi.register { fd := fd, autoDelete := false, kind := .writer } hfd rfl (by simp)
      have hne : s.objects.fresh ≠ a := Nat.ne_of_gt (Heap.lt_fresh_of_read hx)
      have hread : ((s.objects.alloc { fd := fd, autoDelete := false, kind := .writer }).modify a
          fun ev => { ev with kind := .peer (some s.objects.fresh) }).read s.objects.fresh =
          some { fd := fd, autoDelete := false, kind := .writer } := by
        rw [Heap.read_modify, if_neg hne, Heap.read_alloc_fresh]
      simp only [registerEvent, hread, Option.bind_eq_bind, Option.bind_some] at hstep
      cases hstep
      refine ⟨hi₁.own (Heap.read_alloc_of_read hx) hkind (Heap.read_alloc_fresh _ _) rfl ?_, rfl, rfl⟩
      intro b z hb hz
      have hb : (s.objects.alloc { fd := fd, autoDelete := false, kind := .writer }).read b = some z := hb
      rw [Heap.read_alloc] at hb
      split at hb
      · cases hb
        cases hz
      · obtain ⟨y, hy, -⟩ := hi.owned hb hz
        exact Nat.lt_irrefl _ (Heap.lt_fresh_of_read hy)
  · cases hstep
    exact ⟨hi, rfl, rfl⟩

theorem Inv.eventHandler {act : Act} (hi : Inv s) (hx : s.objects.read a = some x)
    (hnodup : (opened x.kind act ++ s.descriptors).Nodup) (hstep : eventHandler s a x.kind act = some s') :
    Inv s' ∧ s'.phase = s.phase ∧ s'.unregistered = s.unregistered := by
  -- Only the sockets that listen and the peers open descriptors.
  cases hkind : x.kind with
  | listener =>
      rw [hkind] at hstep hnodup
      cases act with
      | accept fds => exact hi.acceptHandler hnodup hstep
      | read written => cases hstep
      | flush => cases hstep
  | peer sockWriter =>
      rw [hkind] at hstep
      cases act with
      | accept fds => cases hstep
      | read written =>
          cases written with
          | none =>
              cases hstep
              exact ⟨hi, rfl, rfl⟩
          | some fd => exact hi.write hx hnodup hstep
      | flush => cases hstep
  | writer =>
      rw [hkind] at hstep
      cases act with
      | accept fds => cases hstep
      | read written => cases hstep
      | flush =>
          cases hstep
          exact ⟨hi, rfl, rfl⟩

/-! ## Steps -/

theorem Inv.withPhase (hi : Inv s) (phase : Phase) : Inv { s with phase := phase } :=
  { unique := hi.unique
    distinct := hi.distinct
    entry_iff := hi.entry_iff
    count := hi.count
    once := hi.once
    known := hi.known
    auto_iff := hi.auto_iff
    owned := hi.owned
    owner := hi.owner
    doomed := hi.doomed
    nodup := hi.nodup }

theorem Inv.booked (hi : Inv s) (hexit : s.phase = .exited → s.events = []) (hstay : s.phase = .waiting → s.events ≠ []) :
    Booked h s where
  count := hi.count
  entry := fun e he => by
    obtain ⟨ev, hread, hfd, -⟩ := hi.entry_iff.1 he
    exact ⟨ev, hread, hfd⟩
  registered := fun a ev hread => by
    refine ⟨fun hmem => ?_, hi.entry hread⟩
    obtain ⟨-, -, -, hun⟩ := hi.entry_iff.1 hmem
    exact hun
  once := hi.once
  exit := hexit
  stay := hstay

theorem Inv.booked_of_handling {fds : List Fd} (hi : Inv s) (hphase : s.phase = .handling fds) : Booked h s :=
  hi.booked (fun hexit => by rw [hphase] at hexit; cases hexit) (fun hwait => by rw [hphase] at hwait; cases hwait)

/-- A handled event keeps the books, whatever the handler returns. -/
theorem Inv.handle {act : Act} {ok : Bool} (hi : Inv s) (hstep : Step s (.handle act ok) s') :
    Inv s' ∧ ∃ fds, s'.phase = .handling fds := by
  unfold Step step at hstep
  dsimp only at hstep
  split at hstep
  · next fd fds hphase =>
      obtain ⟨a, hlook, hstep⟩ := Option.bind_eq_some_iff.1 hstep
      obtain ⟨x, hx, hstep⟩ := Option.bind_eq_some_iff.1 hstep
      obtain ⟨-, -, -, hun⟩ := hi.entry_iff.1 (Table.mem_of_lookup hlook)
      split at hstep
      · next hnodup =>
          obtain ⟨s₁, hhandler, hstep⟩ := Option.bind_eq_some_iff.1 hstep
          obtain ⟨hi₁, hphase₁, hun₁⟩ := (hi.withPhase (.handling fds)).eventHandler hx hnodup hhandler
          split at hstep
          · cases hstep
            exact ⟨hi₁, fds, hphase₁⟩
          · obtain ⟨y, hy, hstep⟩ := Option.bind_eq_some_iff.1 hstep
            cases hstep
            have ha : a ∉ s₁.unregistered := by
              rw [hun₁]
              exact hun
            exact ⟨hi₁.unregister hy ha, fds, hphase₁⟩
      · cases hstep
  · cases hstep

theorem booked_step {l : Label} (hi : Inv s) (hb : Booked h s) (hstep : Step s l s') :
    (Booked ((s, l) :: h) s' ↔ WriterRegistered h s l) ∧ (WriterRegistered h s l → Inv s') := by
  cases l with
  | wait fds =>
      dsimp only [Step, step] at hstep
      split at hstep
      · cases hstep
        have hi' := hi.withPhase (.handling fds)
        exact ⟨iff_of_true (hi'.booked_of_handling rfl) trivial, fun _ => hi'⟩
      · cases hstep
  | handle act ok =>
      obtain ⟨hi', fds, hphase⟩ := hi.handle hstep
      exact ⟨iff_of_true (hi'.booked_of_handling hphase) trivial, fun _ => hi'⟩
  | skip =>
      dsimp only [Step, step] at hstep
      split at hstep
      · next fd fds hphase =>
          split at hstep
          · cases hstep
            have hi' := hi.withPhase (.handling fds)
            exact ⟨iff_of_true (hi'.booked_of_handling rfl) trivial, fun _ => hi'⟩
          · cases hstep
      · cases hstep
  | delete a =>
      dsimp only [Step, step] at hstep
      split at hstep
      · next hready =>
          obtain ⟨hphase, honce, hinv⟩ := hi.destroy hready.2 hstep
          refine ⟨⟨fun hb' => honce.1 hb'.once, fun hok => ?_⟩, hinv⟩
          exact (hinv hok).booked_of_handling (hphase.trans hready.1)
      · cases hstep
  | test =>
      dsimp only [Step, step] at hstep
      split at hstep
      · cases hstep
        have hi' := hi.withPhase (if s.eventCount = 0 then .exited else .waiting)
        -- the count is that of the entries, so it tells whether there are any
        have hzero : s.eventCount = 0 ↔ s.events = [] := by
          rw [hb.count]
          exact List.length_eq_zero_iff
        refine ⟨iff_of_true (hi'.booked (fun hexit => ?_) (fun hwait hnil => ?_)) trivial, fun _ => hi'⟩
        · by_cases hcount : s.eventCount = 0
          · exact hzero.1 hcount
          · simp [hcount] at hexit
        · simp [hzero.2 hnil] at hwait
      · cases hstep

/-! ## Runs -/

variable {fd : Fd}

theorem registerEvent_init (fd : Fd) :
    registerEvent { State.init fd with events := [], eventCount := 0 } 0 = some (State.init fd) := rfl

theorem inv_init (fd : Fd) : Inv (State.init fd) := by
  have hempty : Inv { State.init fd with objects := Heap.empty, events := [], eventCount := 0 } := by
    have hread : ∀ {a : Addr} {x : Event}, (Heap.empty : Heap Event).read a ≠ some x := fun {a x} hsome => by
      rw [Heap.read_empty] at hsome
      cases hsome
    exact
      { unique := List.nodup_nil
        distinct := fun ha => absurd ha hread
        entry_iff := ⟨fun hmem => (List.not_mem_nil hmem).elim, fun ⟨x, hx, _⟩ => absurd hx hread⟩
        count := rfl
        once := List.nodup_nil
        known := fun a ha => (List.not_mem_nil ha).elim
        auto_iff := fun ha => absurd ha hread
        owned := fun ha => absurd ha hread
        owner := fun ha => absurd ha hread
        doomed := fun a ha => (List.not_mem_nil ha).elim
        nodup := List.nodup_nil }
  exact hempty.register { fd := fd, autoDelete := false, kind := .listener } List.not_mem_nil rfl (by simp)

/-- In every run the books are kept in every state exactly when no peer is deleted whose writer was unregistered
before. -/
theorem booked_iff (hrun : Run Step (State.init fd) h s) : Along Booked h s ↔ StepsMeet WriterRegistered h := by
  have hinit := (inv_init fd).booked (h := []) (fun hexit => by cases hexit) (fun _ => List.cons_ne_nil _ _)
  refine Run.along_iff_stepsMeet_of_invariant (I := Inv) hinit (inv_init fd) ?_ hrun
  intro h s l s' _ hi hb hstep
  exact booked_step hi hb hstep

/-- Labels that replay are a run, and what a check finds at its end holds. -/
theorem exists_run_of_replay (fd : Fd) (ls : List Label) {P : History State Label → State → Prop}
    [∀ h s, Decidable (P h s)] (hre : (replay step [] (State.init fd) ls).any (fun r => P r.1 r.2) = true) :
    ∃ h s, Run Step (State.init fd) h s ∧ P h s :=
  Run.exists_of_replay id ls hre

/-- A peer is accepted and the listener ends; the peer answers, ends and is deleted, and the loop is left with no event
registered. -/
theorem booked_iff_last_peer : ∃ h s, Run Step (State.init 3) h s ∧ s.phase = .exited ∧ s.unregistered = [2, 1, 0] ∧
    Along Booked h s := by
  obtain ⟨h, s, hrun, hphase, hun, hmeet⟩ := exists_run_of_replay 3
    [.wait [3], .handle (.accept [5]) false, .test, .wait [5, 7], .handle (.read (some 6)) false, .skip, .delete 1,
      .test]
    (P := fun h s => s.phase = .exited ∧ s.unregistered = [2, 1, 0] ∧ StepsMeet WriterRegistered h) (by decide)
  exact ⟨h, s, hrun, hphase, hun, (booked_iff hrun).2 hmeet⟩

/-- The writer of a peer fails, and the peer ends in the same batch: its writer is unregistered again when it is
deleted, and the loop is left while the listener is registered. -/
theorem listener_abandoned : ∃ h s, Run Step (State.init 3) h s ∧ s.phase = .exited ∧ s.events = [(3, 0)] ∧
    s.unregistered = [2, 1, 2] ∧ ¬ Along Booked h s := by
  obtain ⟨h, s, hrun, hphase, hevents, hun⟩ := exists_run_of_replay 3
    [.wait [3], .handle (.accept [5]) true, .test, .wait [5], .handle (.read (some 6)) true, .test, .wait [6, 5],
      .handle .flush false, .handle (.read none) false, .delete 1, .test]
    (P := fun _ s => s.phase = .exited ∧ s.events = [(3, 0)] ∧ s.unregistered = [2, 1, 2]) (by decide)
  refine ⟨h, s, hrun, hphase, hevents, hun, fun halong => ?_⟩
  have hempty := halong.last.exit hphase
  rw [hevents] at hempty
  cases hempty

end EventManager
end CppTracker
end Raiezau
