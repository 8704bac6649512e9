import Mathlib.Data.Int.Interval
import Raiezau.CTracker.Lifetime
import Raiezau.CTracker.PollTable

/-!
# PollRun — the poll table along the runs of the server

`PollTable.step` is the part of a step of the loop that works on the arrays: it finds the slots in the table and
nowhere else.  Every run of `Network` has a table beside it, no access of which faults, and the table stands for
the slots of the run.  A client that was accepted and has not hung up is *connected*: the open slots are those of
the connected clients, one for each.
-/

namespace Raiezau
namespace CTracker
namespace Network

open Memory CUtil Machine

variable {s s' : State} {e : Event} {h : History State Event} {listener socket : Int} {c : Addr} {i j : Nat}
  {slot : Slot} {slots : List Slot}

/-! ## Model -/

/-- The part of a step that works on the arrays. -/
def PollTable.step (s : State) (t : PollTable) : Event → Option PollTable
  | .poll ready revents => t.setRevents 0 ({ pollin := ready } :: revents)
  | .interrupted => t.setRevents 0 (List.replicate t.nfds {})
  | .accept socket connKey => do
      let (s, c) := clientGetOrCreate s socket connKey
      let x ← s.heap.read c
      t.addNewClientToFds c x.socket
  | .incoming =>
      match s.position with
      | .rehear i => t.rehear s (i + 1)
      | .react i => t.react (i + 1)
      | _ => none
  | .clean => t.cleanFds
  | _ => some t

/-- The table after a run. -/
def tableAfter (listener : Int) : History State Event → Option PollTable
  | [] => some (.start listener)
  | (s, e) :: h => do
      let t ← tableAfter listener h
      t.step s e

/-- The client whose hang-up a step handles. -/
def hangsUp (s : State) : Event → Option Addr
  | .incoming =>
      match s.position with
      | .react i => do
          let slot ← s.slots[i]?
          if hungUp slot.revents then slot.client else none
      | _ => none
  | _ => none

/-- The clients that were accepted and have not hung up, each with its socket. -/
def connected : History State Event → List (Addr × Int)
  | [] => []
  | (s, .accept socket connKey) :: h => ((clientGetOrCreate s socket connKey).2, socket) :: connected h
  | (s, e) :: h =>
      match hangsUp s e with
      | some c => (connected h).filter fun p => p.1 ≠ c
      | none => connected h

/-- The number of descriptors that may be open is an `int`, and every descriptor is below it. -/
def IsDescriptor (fd : Int) : Prop := 0 ≤ fd ∧ fd < 2 ^ 31 - 1

instance (fd : Int) : Decidable (IsDescriptor fd) := inferInstanceAs (Decidable (_ ∧ _))

/-- `accept` returns a descriptor that is not in use. -/
def ValidSocket (listener : Int) (h : History State Event) (_ : State) : Event → Prop
  | .accept socket _ => IsDescriptor socket ∧ socket ≠ listener ∧ ∀ p ∈ connected h, p.2 ≠ socket
  | _ => True

instance (listener : Int) (h : History State Event) (s : State) : ∀ e, Decidable (ValidSocket listener h s e)
  | .accept _ _ => inferInstanceAs (Decidable (_ ∧ _ ∧ _))
  | .poll _ _ | .interrupted | .noConnection | .incoming | .clean | .request _ | .setCanRehear _ | .decRef _ =>
      .isTrue trivial

/-- Exactly one entry in use is the client's, and exactly that one has the socket. -/
def PollTable.HasOne (t : PollTable) (c : Addr) (socket : Int) : Prop :=
  ∃ i, 1 ≤ i ∧ i < t.nfds ∧ ∀ j, 1 ≤ j → j < t.nfds →
    (t.clients.load j = some (some c) ↔ j = i) ∧ ((∃ x, t.fds.load j = some x ∧ x.fd = socket) ↔ j = i)

/-! ## What a step does to the slots -/

inductive SlotStep (s s' : State) : Event → Prop
  | polled {ready : Bool} {revents : List PollBits} (hat : s.position = .poll)
      (hlen : s.slots.length = revents.length) (hslots : s'.slots = setRevents s.slots revents)
      (hfresh : s'.heap.fresh = s.heap.fresh) : SlotStep s s' (.poll ready revents)
  | interrupted (hat : s.position = .poll)
      (hslots : s'.slots = setRevents s.slots (List.replicate s.slots.length {}))
      (hfresh : s'.heap.fresh = s.heap.fresh) : SlotStep s s' .interrupted
  | accepted {socket : Int} {connKey : CString} (hat : s.position = .accept)
      (hnew : (clientGetOrCreate s socket connKey).2 = s.heap.fresh)
      (hread : ((clientGetOrCreate s socket connKey).1.heap.read s.heap.fresh).map Client.socket = some socket)
      (hslots : s'.slots = s.slots ++ [newSlot s.heap.fresh socket])
      (hfresh : s'.heap.fresh = s.heap.fresh + 1) (hto : s'.position = .rehear 0) :
      SlotStep s s' (.accept socket connKey)
  | passed {i : Nat} (hat : s.position = .rehear i) (hend : s.slots.length ≤ i) (hslots : s'.slots = s.slots)
      (hfresh : s'.heap.fresh = s.heap.fresh) (hto : s'.position = .clean) : SlotStep s s' .incoming
  | skipped {i : Nat} {slot : Slot} (hat : s.position = .rehear i) (hi : s.slots[i]? = some slot)
      (hclosed : slot.fd < 0) (hslots : s'.slots = s.slots) (hfresh : s'.heap.fresh = s.heap.fresh)
      (hto : s'.position = .rehear (i + 1)) : SlotStep s s' .incoming
  | reheard {i : Nat} {slot : Slot} {c : Addr} {x : Client} (hat : s.position = .rehear i)
      (hi : s.slots[i]? = some slot) (hopen : ¬ slot.fd < 0) (hc : slot.client = some c)
      (hread : s.heap.read c = some x)
      (hslots : s'.slots = if x.canRehear then s.slots.set i slot.asking else s.slots)
      (hfresh : s'.heap.fresh = s.heap.fresh) (hto : s'.position = .react i) : SlotStep s s' .incoming
  | hungUp {i : Nat} {slot : Slot} {c : Addr} (hat : s.position = .react i) (hi : s.slots[i]? = some slot)
      (hup : hungUp slot.revents) (hc : slot.client = some c) (hslots : s'.slots = s.slots.set i .closed)
      (hfresh : s'.heap.fresh = s.heap.fresh) (hto : s'.position = .rehear (i + 1)) : SlotStep s s' .incoming
  | input {i : Nat} {slot : Slot} (hat : s.position = .react i) (hi : s.slots[i]? = some slot)
      (hup : ¬ Network.hungUp slot.revents) (hin : slot.revents.pollin)
      (hslots : s'.slots = s.slots.set i slot.quiet) (hfresh : s'.heap.fresh = s.heap.fresh)
      (hto : s'.position = .rehear (i + 1)) : SlotStep s s' .incoming
  | idle {i : Nat} {slot : Slot} (hat : s.position = .react i) (hi : s.slots[i]? = some slot)
      (hidle : if Network.hungUp slot.revents then slot.client = none else ¬ slot.revents.pollin)
      (hslots : s'.slots = s.slots) (hfresh : s'.heap.fresh = s.heap.fresh)
      (hto : s'.position = .rehear (i + 1)) : SlotStep s s' .incoming
  | cleaned (hslots : s'.slots = cleanFds s.slots) (hfresh : s'.heap.fresh = s.heap.fresh) :
      SlotStep s s' .clean
  | other {e : Event} (htable : ∀ t : PollTable, t.step s e = some t)
      (hconnected : ∀ h, connected ((s, e) :: h) = connected h) (hslots : s'.slots = s.slots)
      (hfresh : s'.heap.fresh = s.heap.fresh)
      (hto : s'.position = s.position ∨ s'.position = .rehear 0) : SlotStep s s' e

theorem slotStep_rehear (hat : s.position = .rehear i) (hi : s.slots[i]? = some slot)
    (hopen : ¬ slot.fd < 0) {r : State} (hr : rehearSlot s i slot = some r) :
    SlotStep s (r.moveTo (.react i)) .incoming := by
  obtain ⟨c, hc, hr⟩ := Option.bind_eq_some_iff.1 hr
  obtain ⟨x, hread, hr⟩ := Option.bind_eq_some_iff.1 hr
  refine .reheard hat hi hopen hc hread ?_ ?_ rfl
  · split at hr <;> cases hr <;> simp_all [State.moveTo, State.setSlot, State.modifyClient]
  · split at hr <;> cases hr
    · exact State.fresh_modifyClient s c _
    · rfl

theorem slotStep_react (hat : s.position = .react i) (hi : s.slots[i]? = some slot) {r : State}
    (hr : reactSlot s i slot = some r) : SlotStep s (r.moveTo (.rehear (i + 1))) .incoming := by
  unfold reactSlot at hr
  split at hr
  · next hup =>
      cases hc : slot.client with
      | none =>
          rw [hc] at hr
          cases hr
          exact .idle hat hi (by rw [if_pos (show hungUp slot.revents = true from hup)]; exact hc) rfl rfl rfl
      | some c =>
          rw [hc] at hr
          obtain ⟨d, hd, hr⟩ := Option.bind_eq_some_iff.1 hr
          obtain ⟨x, hdrop⟩ := clientDecRef_drops hd
          cases hr
          refine .hungUp hat hi hup hc ?_ hdrop.fresh rfl
          exact congrArg (List.set · i Slot.closed) hdrop.slots
  · next hup =>
      split at hr
      · next hin =>
          refine .input hat hi hup hin ?_ ?_ rfl
          all_goals
            unfold startServerReqhandlerThread at hr
            split at hr
            · obtain ⟨d, hd, hr⟩ := Option.bind_eq_some_iff.1 hr
              obtain ⟨y, -, rfl⟩ := clientIncRef_eq hd
              cases hr
              first
              | rfl
              | exact State.fresh_modifyClient _ _ _
            · cases hr
              rfl
      · next hin =>
          cases hr
          exact .idle hat hi (by rw [if_neg (show ¬ hungUp slot.revents = true from hup)]; exact hin) rfl rfl rfl

theorem slotStep_accept {connKey : CString} (hat : s.position = .accept) (hkey : htGetEntry s.clients connKey = none)
    {r : State} (hr : handleNewConnection s socket connKey = some r) :
    SlotStep s (r.moveTo (.rehear 0)) (.accept socket connKey) := by
  unfold handleNewConnection clientGetOrCreate addNewClientToFds at hr
  rw [hkey] at hr
  obtain ⟨t, hinc, hr⟩ := Option.bind_eq_some_iff.1 hr
  obtain ⟨y, hy, rfl⟩ := clientIncRef_eq hinc
  obtain ⟨x, hx, hr⟩ := Option.bind_eq_some_iff.1 hr
  cases hr
  have hread : ∀ z, (s.addClient connKey z).heap.read s.heap.fresh = some z :=
    fun z => Heap.read_alloc_fresh _ z
  rw [State.read_modifyClient, if_pos rfl, hread, Option.map_some] at hx
  cases hx
  refine .accepted hat ?_ ?_ rfl ?_ rfl
  · rw [clientGetOrCreate, hkey]
  · rw [clientGetOrCreate, hkey]
    exact congrArg _ (hread _)
  · exact (State.fresh_modifyClient _ _ _).trans (Heap.fresh_alloc _ _)

theorem slotStep_incoming (hs : incoming s = some s') : SlotStep s s' .incoming := by
  unfold incoming at hs
  split at hs
  · next i hat =>
      cases hi : s.slots[i]? with
      | none =>
          rw [hi] at hs
          cases hs
          exact .passed hat (List.getElem?_eq_none_iff.1 hi) rfl rfl rfl
      | some slot =>
          rw [hi] at hs
          dsimp only at hs
          split at hs
          · next hclosed =>
              cases hs
              exact .skipped hat hi hclosed rfl rfl rfl
          · next hopen =>
              obtain ⟨r, hr, hs⟩ := Option.bind_eq_some_iff.1 hs
              cases hs
              exact slotStep_rehear hat hi hopen hr
  · next i hat =>
      cases hi : s.slots[i]? with
      | none =>
          rw [hi] at hs
          cases hs
      | some slot =>
          rw [hi] at hs
          obtain ⟨r, hr, hs⟩ := Option.bind_eq_some_iff.1 hs
          cases hs
          exact slotStep_react hat hi hr
  · cases hs

theorem clientDecRef_position (hs : clientDecRef s c = some s') : s'.position = s.position := by
  unfold clientDecRef at hs
  obtain ⟨x, hread, hs⟩ := Option.bind_eq_some_iff.1 hs
  split at hs
  · obtain ⟨y, hy, hs⟩ := Option.bind_eq_some_iff.1 hs
    cases hs
    rfl
  · cases hs
    rfl

/-- What a step does to the slots: the guards it passed, and the slots it left. -/
theorem slotStep (hs : Step s e s') : SlotStep s s' e := by
  unfold Step at hs
  -- The steps of the handlers leave the slots alone.
  cases e with
  | poll ready revents =>
      obtain ⟨hguard, hs⟩ := Option.ite_none_right_eq_some.1 hs
      cases hs
      exact .polled hguard.1 (List.Forall₂.length_eq hguard.2) rfl rfl
  | interrupted =>
      obtain ⟨hguard, hs⟩ := Option.ite_none_right_eq_some.1 hs
      cases hs
      refine .interrupted hguard ?_ rfl
      rw [← List.map_const']
  | accept socket connKey =>
      obtain ⟨hguard, hs⟩ := Option.ite_none_right_eq_some.1 hs
      obtain ⟨r, hr, hs⟩ := Option.bind_eq_some_iff.1 hs
      cases hs
      exact slotStep_accept hguard.1 hguard.2.2.2 hr
  | noConnection =>
      obtain ⟨hguard, hs⟩ := Option.ite_none_right_eq_some.1 hs
      cases hs
      exact .other (fun _ => rfl) (fun _ => rfl) rfl rfl (.inr rfl)
  | incoming => exact slotStep_incoming hs
  | clean =>
      obtain ⟨hguard, hs⟩ := Option.ite_none_right_eq_some.1 hs
      cases hs
      exact .cleaned rfl rfl
  | request j =>
      obtain ⟨hd, hj, hs⟩ := Option.bind_eq_some_iff.1 hs
      obtain ⟨x, hread, hs⟩ := Option.bind_eq_some_iff.1 hs
      obtain ⟨hguard, hs⟩ := Option.ite_none_right_eq_some.1 hs
      cases hs
      exact .other (fun _ => rfl) (fun _ => rfl) rfl rfl (.inl rfl)
  | setCanRehear j =>
      obtain ⟨hd, hj, hs⟩ := Option.bind_eq_some_iff.1 hs
      obtain ⟨x, hread, hs⟩ := Option.bind_eq_some_iff.1 hs
      obtain ⟨hguard, hs⟩ := Option.ite_none_right_eq_some.1 hs
      cases hs
      exact .other (fun _ => rfl) (fun _ => rfl) rfl (State.fresh_modifyClient _ _ _) (.inl rfl)
  | decRef j =>
      obtain ⟨hd, hj, hs⟩ := Option.bind_eq_some_iff.1 hs
      obtain ⟨hguard, hs⟩ := Option.ite_none_right_eq_some.1 hs
      obtain ⟨r, hr, hs⟩ := Option.bind_eq_some_iff.1 hs
      obtain ⟨x, hdrop⟩ := clientDecRef_drops hr
      cases hs
      exact .other (fun _ => rfl) (fun _ => rfl) hdrop.slots hdrop.fresh 
        (.inl (show r.position = s.position from clientDecRef_position hr))

/-! ## The connected clients -/

/-- The client of an open slot, with the descriptor beside it. -/
def Slot.pair (slot : Slot) : Option (Addr × Int) := slot.client.map fun c => (c, slot.fd)

def pairs (slots : List Slot) : List (Addr × Int) := slots.filterMap Slot.pair

theorem pair_of_client (hc : slot.client = some c) : slot.pair = some (c, slot.fd) := by
  rw [Slot.pair, hc, Option.map_some]

theorem pairs_setRevents {revents : List PollBits} (hlen : slots.length = revents.length) :
    pairs (setRevents slots revents) = pairs slots := by
  -- Only the results are written.
  induction slots generalizing revents with
  | nil => rfl
  | cons slot slots ih =>
      obtain ⟨r, revents, rfl⟩ := List.exists_cons_of_length_eq_add_one hlen.symm
      have hpair : Slot.pair { slot with revents := r } = slot.pair := rfl
      unfold pairs setRevents at ih ⊢
      rw [List.zipWith_cons_cons, List.filterMap_cons, List.filterMap_cons, hpair, ih (Nat.succ.inj hlen)]

/-- A slot that keeps its client and its descriptor. -/
theorem pairs_set {slot' : Slot} (hi : slots[i]? = some slot) (hpair : slot'.pair = slot.pair) :
    pairs (slots.set i slot') = pairs slots := by
  obtain ⟨hlen, hget⟩ := List.getElem?_eq_some_iff.1 hi
  have hslots : slots = slots.take i ++ slot :: slots.drop (i + 1) := by
    rw [← hget, List.getElem_cons_drop, List.take_append_drop]
  rw [List.set_eq_take_append_cons_drop, if_pos hlen]
  unfold pairs
  conv => rhs; rw [hslots]
  rw [List.filterMap_append, List.filterMap_append, List.filterMap_cons, List.filterMap_cons, hpair]

/-- A slot is closed: its client's pair goes, and no other. -/
theorem pairs_close (hi : slots[i]? = some slot) (hc : slot.client = some c)
    (hnodup : ((pairs slots).map Prod.fst).Nodup) :
    pairs (slots.set i .closed) = (pairs slots).filter fun p => p.1 ≠ c := by
  obtain ⟨hlen, hget⟩ := List.getElem?_eq_some_iff.1 hi
  have hslots : slots = slots.take i ++ slot :: slots.drop (i + 1) := by
    rw [← hget, List.getElem_cons_drop, List.take_append_drop]
  have hcut : pairs slots = pairs (slots.take i) ++ (c, slot.fd) :: pairs (slots.drop (i + 1)) := by
    unfold pairs
    conv => lhs; rw [hslots]
    rw [List.filterMap_append, List.filterMap_cons, pair_of_client hc]
  have hothers : ∀ p ∈ pairs (slots.take i) ++ pairs (slots.drop (i + 1)), p.1 ≠ c := by
    intro p hp
    rw [hcut, List.map_append, List.map_cons, (List.perm_middle).nodup_iff, List.nodup_cons,
      ← List.map_append] at hnodup
    exact fun heq => hnodup.1 (List.mem_map.2 ⟨p, hp, heq⟩)
  rw [hcut, List.filter_append, List.filter_cons_of_neg (by simp), ← List.filter_append,
    List.filter_eq_self.2 fun p hp => decide_eq_true (hothers p hp), List.set_eq_take_append_cons_drop,
    if_pos hlen]
  unfold pairs
  rw [List.filterMap_append, List.filterMap_cons]
  rfl

/-- What `clean_fds` drops has no client. -/
theorem pairs_cleanFds (hsane : ∀ slot ∈ slots, slot.Sane) : (pairs (cleanFds slots)).Perm (pairs slots) := by
  have hperm : (pairs (cleanFds slots)).Perm (pairs (slots.filter fun slot => slot.fd ≠ -1)) :=
    (cleanLoop_perm (Nat.le_refl slots.length)).filterMap _
  have hsame : pairs (slots.filter fun slot => slot.fd ≠ -1) = pairs slots := by
    unfold pairs
    rw [List.filterMap_filter]
    refine List.filterMap_congr fun slot hslot => ?_
    split
    · rfl
    · next hclosed =>
        rcases (hsane slot hslot).2 with ⟨-, hnone⟩ | ⟨hfd, -⟩
        · rw [Slot.pair, hnone, Option.map_none]
        · have hminus : slot.fd = -1 := by simpa using hclosed
          omega
  exact hsame ▸ hperm

/-! ## All runs -/

/-- While the loop waits in `poll` or accepts, every slot has a client. -/
def AllOpen (s : State) : Prop :=
  s.position = .poll ∨ s.position = .accept → ∀ slot ∈ s.slots, ∃ c, slot.client = some c

/-- The table stands for the slots, and the open slots are those of the connected clients. -/
structure Tabled (listener : Int) (h : History State Event) (s : State) : Prop where
  inv : Inv s
  table : ∃ t first, tableAfter listener h = some t ∧ t.Represents first s.slots
  paired : (pairs s.slots).Perm (connected h)
  distinct : ((connected h).map Prod.fst).Nodup ∧ ((connected h).map Prod.snd).Nodup
  born : ∀ p ∈ connected h, p.1 < s.heap.fresh
  sockets : ∀ p ∈ connected h, IsDescriptor p.2 ∧ p.2 ≠ listener
  allOpen : AllOpen s

theorem tabled_init (listener : Int) : Tabled listener [] State.init where
  inv := inv_init
  table := ⟨_, _, rfl, PollTable.represents_start listener⟩
  paired := .nil
  distinct := ⟨List.nodup_nil, List.nodup_nil⟩
  born := nofun
  sockets := nofun
  allOpen := fun _ _ hslot => absurd hslot List.not_mem_nil

/-- Distinct descriptors are fewer than the limit. -/
theorem length_lt_of_descriptors {fds : List Int} (hnodup : fds.Nodup) (hfds : ∀ fd ∈ fds, IsDescriptor fd) :
    fds.length < 2 ^ 31 := by
  have hsub : fds.toFinset ⊆ Finset.Ico (0 : Int) (2 ^ 31 - 1) := fun fd hfd =>
    Finset.mem_Ico.2 (hfds fd (List.mem_toFinset.1 hfd))
  have hcard := Finset.card_le_card hsub
  rw [List.toFinset_card_of_nodup hnodup, Int.card_Ico] at hcard
  omega

/-- Where a client connects, the table has not reached the end of `int`. -/
theorem Tabled.room (ht : Tabled listener h s) (hl : IsDescriptor listener) (hat : s.position = .accept)
    (hsocket : IsDescriptor socket) (hne : socket ≠ listener) (hnew : ∀ p ∈ connected h, p.2 ≠ socket) :
    s.slots.length + 2 < 2 ^ 31 := by
  have hlen : (pairs s.slots).length = s.slots.length := by
    unfold pairs
    refine List.filterMap_length_eq_length.2 fun slot hslot => ?_
    obtain ⟨c, hc⟩ := ht.allOpen (.inr hat) slot hslot
    rw [pair_of_client hc]
    rfl
  have hfds : (listener :: socket :: (connected h).map Prod.snd).Nodup := by
    refine List.nodup_cons.2 ⟨fun hmem => ?_, List.nodup_cons.2 ⟨fun hmem => ?_, ht.distinct.2⟩⟩
    · rcases List.mem_cons.1 hmem with heq | hmem
      · exact hne heq.symm
      · obtain ⟨p, hp, heq⟩ := List.mem_map.1 hmem
        exact (ht.sockets p hp).2 heq
    · obtain ⟨p, hp, heq⟩ := List.mem_map.1 hmem
      exact hnew p hp heq
  have hlt := length_lt_of_descriptors hfds fun fd hfd => by
    rcases List.mem_cons.1 hfd with rfl | hfd
    · exact hl
    rcases List.mem_cons.1 hfd with rfl | hfd
    · exact hsocket
    obtain ⟨p, hp, rfl⟩ := List.mem_map.1 hfd
    exact (ht.sockets p hp).1
  rw [List.length_cons, List.length_cons, List.length_map, ← ht.paired.length_eq, hlen] at hlt
  exact hlt

/-- The arrays follow the slots: no access of a step faults. -/
theorem Tabled.table_step (ht : Tabled listener h s) (hl : IsDescriptor listener) (hok : ValidSocket listener h s e)
    (hs : SlotStep s s' e) :
    ∃ t first, tableAfter listener ((s, e) :: h) = some t ∧ t.Represents first s'.slots := by
  obtain ⟨t, first, htable, hrep⟩ := ht.table
  suffices hstep : ∃ t' first', t.step s e = some t' ∧ t'.Represents first' s'.slots by
    obtain ⟨t', first', hstep, hrep'⟩ := hstep
    exact ⟨t', first', by rw [tableAfter, htable]; exact hstep, hrep'⟩
  -- One access of the arrays for each step on the slots.
  cases hs with
  | polled hat hlen hslots =>
      obtain ⟨t', hstep, hrep'⟩ := hrep.setRevents hlen _
      exact ⟨t', _, hstep, hslots ▸ hrep'⟩
  | interrupted hat hslots =>
      obtain ⟨t', hstep, hrep'⟩ := hrep.setRevents (List.length_replicate).symm {}
      refine ⟨t', _, ?_, hslots ▸ hrep'⟩
      rw [PollTable.step, hrep.nfds_eq]
      exact hstep
  | accepted hat hnew hread hslots =>
      have hroom := ht.room hl hat hok.1 hok.2.1 hok.2.2
      have hlt : t.nfds + 1 < 2 ^ 31 := by
        rw [hrep.nfds_eq]
        exact hroom
      obtain ⟨t', hstep, hrep'⟩ := hrep.addNewClientToFds hlt s.heap.fresh _
      refine ⟨t', first, ?_, hslots ▸ hrep'⟩
      obtain ⟨x, hx, rfl⟩ := Option.map_eq_some_iff.1 hread
      simp only [PollTable.step, hnew, hx, Option.bind_eq_bind, Option.bind_some]
      exact hstep
  | passed hat hend hslots =>
      refine ⟨t, first, ?_, hslots ▸ hrep⟩
      rw [PollTable.step, hat]
      exact hrep.rehear_end s hend
  | skipped hat hi hclosed hslots =>
      refine ⟨t, first, ?_, hslots ▸ hrep⟩
      rw [PollTable.step, hat]
      exact hrep.rehear_closed s hi hclosed
  | reheard hat hi hopen hc hread hslots =>
      obtain ⟨t', hstep, hrep'⟩ := hrep.rehear hi hopen hc hread
      refine ⟨t', first, ?_, hslots ▸ hrep'⟩
      rw [PollTable.step, hat]
      exact hstep
  | hungUp hat hi hup hc hslots =>
      obtain ⟨t', hstep, hrep'⟩ := hrep.react_hungUp hi hup hc
      refine ⟨t', first, ?_, hslots ▸ hrep'⟩
      rw [PollTable.step, hat]
      exact hstep
  | input hat hi hup hin hslots =>
      obtain ⟨t', hstep, hrep'⟩ := hrep.react_input hi hup hin
      refine ⟨t', first, ?_, hslots ▸ hrep'⟩
      rw [PollTable.step, hat]
      exact hstep
  | idle hat hi hidle hslots =>
      refine ⟨t, first, ?_, hslots ▸ hrep⟩
      rw [PollTable.step, hat]
      exact hrep.react_idle hi hidle
  | cleaned hslots =>
      obtain ⟨t', hstep, hrep'⟩ := hrep.cleanFds
      exact ⟨t', first, hstep, hslots ▸ hrep'⟩
  | other htable' hconnected hslots => exact ⟨t, first, htable' t, hslots ▸ hrep⟩

/-- A step changes nothing about who is connected, connects a client, or handles a hang-up. -/
inductive Connects (h : History State Event) (s : State) (e : Event) (s' : State) : Prop
  | same (hconnected : connected ((s, e) :: h) = connected h) (hpairs : (pairs s'.slots).Perm (pairs s.slots))
      (hfresh : s'.heap.fresh = s.heap.fresh)
  | added {socket : Int} {connKey : CString} (hevent : e = .accept socket connKey)
      (hconnected : connected ((s, e) :: h) = (s.heap.fresh, socket) :: connected h)
      (hpairs : pairs s'.slots = pairs s.slots ++ [(s.heap.fresh, socket)])
      (hfresh : s'.heap.fresh = s.heap.fresh + 1)
  | removed {c : Addr} (hconnected : connected ((s, e) :: h) = (connected h).filter fun p => p.1 ≠ c)
      (hpairs : pairs s'.slots = (pairs s.slots).filter fun p => p.1 ≠ c)
      (hfresh : s'.heap.fresh = s.heap.fresh)

theorem connected_incoming_none (hnone : hangsUp s .incoming = none) :
    connected ((s, .incoming) :: h) = connected h := by
  rw [connected, hnone]
  exact nofun

theorem connected_incoming_some (hsome : hangsUp s .incoming = some c) :
    connected ((s, .incoming) :: h) = (connected h).filter fun p => p.1 ≠ c := by
  rw [connected, hsome]
  exact nofun

theorem hangsUp_react (hat : s.position = .react i) (hi : s.slots[i]? = some slot) :
    hangsUp s .incoming = if hungUp slot.revents then slot.client else none := by
  rw [hangsUp, hat]
  simp only [hi, Option.bind_eq_bind, Option.bind_some]

theorem hangsUp_rehear (hat : s.position = .rehear i) : hangsUp s .incoming = none := by
  rw [hangsUp, hat]

theorem Tabled.connects (ht : Tabled listener h s) (hs : SlotStep s s' e) : Connects h s e s' := by
  have hnodup : ((pairs s.slots).map Prod.fst).Nodup := (ht.paired.map Prod.fst).nodup_iff.2 ht.distinct.1
  cases hs with
  | polled hat hlen hslots hfresh =>
      exact .same rfl (.of_eq (by rw [hslots, pairs_setRevents hlen])) hfresh
  | interrupted hat hslots hfresh =>
      exact .same rfl (.of_eq (by rw [hslots, pairs_setRevents List.length_replicate.symm])) hfresh
  | @accepted socket connKey hat hnew hread hslots hfresh =>
      refine .added rfl (by rw [connected, hnew]) ?_ hfresh
      rw [hslots, pairs, List.filterMap_append]
      rfl
  | passed hat hend hslots hfresh =>
      exact .same (connected_incoming_none (hangsUp_rehear hat)) (.of_eq (by rw [hslots])) hfresh
  | skipped hat hi hclosed hslots hfresh =>
      exact .same (connected_incoming_none (hangsUp_rehear hat)) (.of_eq (by rw [hslots])) hfresh
  | reheard hat hi hopen hc hread hslots hfresh =>
      refine .same (connected_incoming_none (hangsUp_rehear hat)) (.of_eq ?_) hfresh
      rw [hslots]
      split
      · exact pairs_set hi rfl
      · rfl
  | hungUp hat hi hup hc hslots hfresh =>
      have hsome := hangsUp_react hat hi
      rw [if_pos hup, hc] at hsome
      exact .removed (connected_incoming_some hsome) (by rw [hslots, pairs_close hi hc hnodup]) hfresh
  | input hat hi hup hin hslots hfresh =>
      have hnone := hangsUp_react hat hi
      rw [if_neg hup] at hnone
      refine .same (connected_incoming_none hnone) (.of_eq ?_) hfresh
      rw [hslots]
      exact pairs_set hi rfl
  | idle hat hi hidle hslots hfresh =>
      have hnone := hangsUp_react hat hi
      refine .same (connected_incoming_none (hnone.trans ?_)) (.of_eq (by rw [hslots])) hfresh
      split at hidle
      · next hup => exact (if_pos hup).trans hidle
      · next hup => exact if_neg hup
  | cleaned hslots hfresh => exact .same rfl (hslots ▸ pairs_cleanFds ht.inv.slots) hfresh
  | other htable hconnected hslots hfresh => exact .same (hconnected h) (.of_eq (by rw [hslots])) hfresh

theorem exists_of_mem_setRevents {revents : List PollBits} (hmem : slot ∈ setRevents slots revents) :
    ∃ x ∈ slots, slot.client = x.client := by
  obtain ⟨k, hk⟩ := List.mem_iff_getElem?.1 hmem
  rw [setRevents, List.getElem?_zipWith_eq_some] at hk
  obtain ⟨x, r, hx, -, rfl⟩ := hk
  exact ⟨x, List.mem_of_getElem? hx, rfl⟩

theorem allOpen_of_position {position : Position} (hto : s.position = position) (hpoll : position ≠ .poll)
    (haccept : position ≠ .accept) : AllOpen s := by
  intro hat
  rw [hto] at hat
  exact absurd hat (not_or.2 ⟨hpoll, haccept⟩)

/-- Slots are closed and looked at between `accept` and `clean_fds` only. -/
theorem Tabled.allOpen_step (ht : Tabled listener h s) (hs : SlotStep s s' e) : AllOpen s' := by
  cases hs with
  | polled hat hlen hslots =>
      intro _ slot hslot
      rw [hslots] at hslot
      obtain ⟨x, hx, hclient⟩ := exists_of_mem_setRevents hslot
      exact hclient ▸ ht.allOpen (.inl hat) x hx
  | interrupted hat hslots =>
      intro _ slot hslot
      rw [hslots] at hslot
      obtain ⟨x, hx, hclient⟩ := exists_of_mem_setRevents hslot
      exact hclient ▸ ht.allOpen (.inl hat) x hx
  | accepted hat hnew hread hslots hfresh hto => exact allOpen_of_position hto nofun nofun
  | passed hat hend hslots hfresh hto => exact allOpen_of_position hto nofun nofun
  | skipped hat hi hclosed hslots hfresh hto => exact allOpen_of_position hto nofun nofun
  | reheard hat hi hopen hc hread hslots hfresh hto => exact allOpen_of_position hto nofun nofun
  | hungUp hat hi hup hc hslots hfresh hto => exact allOpen_of_position hto nofun nofun
  | input hat hi hup hin hslots hfresh hto => exact allOpen_of_position hto nofun nofun
  | idle hat hi hidle hslots hfresh hto => exact allOpen_of_position hto nofun nofun
  | cleaned hslots =>
      intro _ slot hslot
      rw [hslots] at hslot
      have hperm := cleanLoop_perm (Nat.le_refl s.slots.length)
      obtain ⟨hmem, hopen⟩ := List.mem_filter.1 (hperm.subset hslot)
      rcases (ht.inv.slots slot hmem).2 with ⟨hclosed, -⟩ | ⟨-, hclient⟩
      · exact absurd hclosed (by simpa using hopen)
      · exact hclient
  | other htable hconnected hslots hfresh hto =>
      rcases hto with hto | hto
      · intro hpos slot hslot
        rw [hslots] at hslot
        exact ht.allOpen (hto ▸ hpos) slot hslot
      · exact allOpen_of_position hto nofun nofun

theorem tabled_step (hl : IsDescriptor listener) (ht : Tabled listener h s) (hok : ValidSocket listener h s e)
    (hs : Step s e s') : Tabled listener ((s, e) :: h) s' := by
  have hslot := slotStep hs
  have hinv : Inv s' := step_inv ht.inv hs
  have htable := ht.table_step hl hok hslot
  have hopen := ht.allOpen_step hslot
  cases ht.connects hslot with
  | same hconnected hpairs hfresh =>
      exact
        { inv := hinv
          table := htable
          paired := hconnected ▸ hpairs.trans ht.paired
          distinct := hconnected ▸ ht.distinct
          born := fun p hp => hfresh ▸ ht.born p (hconnected ▸ hp)
          sockets := fun p hp => ht.sockets p (hconnected ▸ hp)
          allOpen := hopen }
  | @added socket connKey hevent hconnected hpairs hfresh =>
      subst hevent
      refine
        { inv := hinv
          table := htable
          paired := ?_
          distinct := ?_
          born := fun p hp => ?_
          sockets := fun p hp => ?_
          allOpen := hopen }
      · rw [hconnected, hpairs]
        exact (List.perm_append_singleton _ _).trans (ht.paired.cons _)
      · rw [hconnected, List.map_cons, List.map_cons]
        refine ⟨List.nodup_cons.2 ⟨fun hmem => ?_, ht.distinct.1⟩,
          List.nodup_cons.2 ⟨fun hmem => ?_, ht.distinct.2⟩⟩
        · obtain ⟨p, hp, heq⟩ := List.mem_map.1 hmem
          exact absurd (ht.born p hp) (heq ▸ Nat.lt_irrefl _)
        · obtain ⟨p, hp, heq⟩ := List.mem_map.1 hmem
          exact hok.2.2 p hp heq
      · rw [hfresh]
        rcases List.mem_cons.1 (hconnected ▸ hp) with rfl | hp
        · exact Nat.lt_succ_self _
        · exact Nat.lt_succ_of_lt (ht.born p hp)
      · rcases List.mem_cons.1 (hconnected ▸ hp) with rfl | hp
        · exact ⟨hok.1, hok.2.1⟩
        · exact ht.sockets p hp
  | @removed c hconnected hpairs hfresh =>
      have hsub : (connected ((s, e) :: h)).Sublist (connected h) := hconnected ▸ List.filter_sublist
      exact
        { inv := hinv
          table := htable
          paired := by
            rw [hconnected, hpairs]
            exact ht.paired.filter _
          distinct := ⟨ht.distinct.1.sublist (hsub.map _), ht.distinct.2.sublist (hsub.map _)⟩
          born := fun p hp => hfresh ▸ ht.born p (hsub.subset hp)
          sockets := fun p hp => ht.sockets p (hsub.subset hp)
          allOpen := hopen }

theorem tabled_of_run (hl : IsDescriptor listener) (hrun : Run Step State.init h s)
    (hok : StepsMeet (ValidSocket listener) h) : Tabled listener h s :=
  (hrun.along_of_stepsMeet (tabled_init listener) (fun ht hok hs => tabled_step hl ht hok hs) id hok).last

/-- Two places of a list whose values have one key are one place. -/
theorem index_unique {α β γ : Type} {l : List α} {f : α → Option β} {g : β → γ} {a b : α} {x y : β}
    (hnodup : ((l.filterMap f).map g).Nodup) (hi : l[i]? = some a) (hj : l[j]? = some b) (ha : f a = some x)
    (hb : f b = some y) (hxy : g x = g y) : i = j := by
  obtain ⟨hilen, rfl⟩ := List.getElem?_eq_some_iff.1 hi
  obtain ⟨hjlen, rfl⟩ := List.getElem?_eq_some_iff.1 hj
  rw [List.Nodup, List.pairwise_map, List.pairwise_filterMap, List.pairwise_iff_getElem] at hnodup
  -- Two different places would give the key twice.
  rcases Nat.lt_trichotomy i j with hlt | heq | hlt
  · exact absurd hxy (hnodup i j hilen hjlen hlt x ha y hb)
  · exact heq
  · exact absurd hxy.symm (hnodup j i hjlen hilen hlt y hb x ha)

theorem Tabled.hasOne (ht : Tabled listener h s) {t : PollTable} {first : PollFd}
    (hrep : t.Represents first s.slots) {p : Addr × Int} (hp : p ∈ connected h) : t.HasOne p.1 p.2 := by
  have hclients : ((pairs s.slots).map Prod.fst).Nodup := (ht.paired.map Prod.fst).nodup_iff.2 ht.distinct.1
  have hsockets : ((pairs s.slots).map Prod.snd).Nodup := (ht.paired.map Prod.snd).nodup_iff.2 ht.distinct.2
  obtain ⟨slot, hmem, hpair⟩ := List.mem_filterMap.1 (ht.paired.symm.subset hp)
  obtain ⟨i, hi⟩ := List.mem_iff_getElem?.1 hmem
  obtain ⟨c, hc, rfl⟩ := Option.map_eq_some_iff.1 hpair
  have hlen := (List.getElem?_eq_some_iff.1 hi).1
  refine ⟨i + 1, Nat.succ_pos i, by rw [hrep.nfds_eq]; exact Nat.succ_lt_succ hlen, fun j hpos hj => ?_⟩
  obtain ⟨j, rfl⟩ := Nat.exists_eq_add_of_le' hpos
  rw [hrep.nfds_eq] at hj
  obtain ⟨slot', hj⟩ : ∃ slot', s.slots[j]? = some slot' := ⟨_, List.getElem?_eq_getElem (Nat.lt_of_succ_lt_succ hj)⟩
  obtain ⟨hfd, hclient⟩ := hrep.entry hj
  refine ⟨⟨fun hload => ?_, fun heq => ?_⟩, ⟨?_, fun heq => ?_⟩⟩
  · -- The client's entry: its place is the one found.
    have hc' : slot'.client = some c := Option.some.inj (hclient.symm.trans hload)
    exact congrArg (· + 1) (index_unique hclients hj hi (pair_of_client hc') hpair rfl)
  · obtain rfl := Nat.succ.inj heq
    obtain rfl := Option.some.inj (hj.symm.trans hi)
    rw [hclient, hc]
  · -- The socket's entry: it is open, so it has a client.
    rintro ⟨x, hload, hsocket⟩
    obtain rfl := Option.some.inj (hfd.symm.trans hload)
    have hfd' : slot'.fd = slot.fd := hsocket
    have hopen : 0 ≤ slot.fd := (ht.sockets _ hp).1.1
    rcases (ht.inv.slots slot' (List.mem_of_getElem? hj)).2 with ⟨hclosed, -⟩ | ⟨-, d, hd⟩
    · omega
    · exact congrArg (· + 1) (index_unique hsockets hj hi (pair_of_client hd) hpair hfd')
  · obtain rfl := Nat.succ.inj heq
    obtain rfl := Option.some.inj (hj.symm.trans hi)
    exact ⟨_, hfd, rfl⟩

/-- `clean_fds` leaves the open slots of every table, each once and with its client; along every run each
connected client has one slot, with its socket, and no access to the table is outside of it. -/
theorem pollTable_slots {t : PollTable} {first : PollFd} (hrep : t.Represents first slots)
    (hl : IsDescriptor listener) (hrun : Run Step State.init h s) (hok : StepsMeet (ValidSocket listener) h) :
    (∃ t' slots', t.cleanFds = some t' ∧ t'.Represents first slots' ∧
        slots'.Perm (slots.filter fun slot => slot.fd ≠ -1) ∧ ∀ slot ∈ slots', slot.fd ≠ -1) ∧
      ∃ t, tableAfter listener h = some t ∧ t.nfds ≤ t.fdsBufferSize ∧ t.fds.size = t.fdsBufferSize ∧
        t.clients.size = t.fdsBufferSize ∧ ∀ p ∈ connected h, t.HasOne p.1 p.2 := by
  constructor
  · obtain ⟨t', hclean, hrep'⟩ := hrep.cleanFds
    have hperm := cleanLoop_perm (Nat.le_refl slots.length)
    refine ⟨t', _, hclean, hrep', hperm, fun slot hslot => ?_⟩
    exact of_decide_eq_true (List.mem_filter.1 (hperm.subset hslot)).2
  · have ht := tabled_of_run hl hrun hok
    obtain ⟨t, first, htable, hrep⟩ := ht.table
    exact ⟨t, htable, hrep.nfds_le, hrep.size_fds, hrep.size_clients, fun p hp => ht.hasOne hrep hp⟩

/-- The first of two clients hangs up, and its slot is not cleaned up yet. -/
def closedSlotSession : List Event :=
  [.poll true [], .accept 5 "127.0.0.1:4000".toList, .incoming, .incoming, .incoming, .clean,
    .poll true [{}], .accept 6 "127.0.0.1:4001".toList, .incoming, .incoming, .incoming, .incoming, .incoming,
    .clean, .poll false [{ pollrdhup := true }, {}], .noConnection, .incoming, .incoming]

theorem pollTable_slots_closed : ∃ h s t t', Run Step State.init h s ∧ tableAfter 3 h = some t ∧ t.nfds = 3 ∧
    t.HasOne 1 6 ∧ t.cleanFds = some t' ∧ t'.nfds = 2 := by
  obtain ⟨h, s, hrun, hok, hconnected, hslots⟩ : ∃ h s, Run Step State.init h s ∧
      StepsMeet (ValidSocket 3) h ∧ connected h = [(1, 6)] ∧ s.slots = [.closed, newSlot 1 6] :=
    Run.exists_of_replay id closedSlotSession
      (P := fun h (s : State) => StepsMeet (ValidSocket 3) h ∧ connected h = [(1, 6)] ∧
        s.slots = [.closed, newSlot 1 6])
      (by decide +kernel)
  have hl : IsDescriptor 3 := by decide
  obtain ⟨t, first, htable, hrep⟩ := (tabled_of_run hl hrun hok).table
  obtain ⟨⟨t', slots', hclean, hrep', hperm, -⟩, t₁, htable₁, -, -, -, hone⟩ := pollTable_slots hrep hl hrun hok
  obtain rfl := Option.some.inj (htable.symm.trans htable₁)
  refine ⟨h, s, t, t', hrun, htable, ?_, hone (1, 6) (hconnected ▸ List.mem_singleton_self _), hclean, ?_⟩
  · rw [hrep.nfds_eq, hslots]
    rfl
  · rw [hrep'.nfds_eq, hperm.length_eq, hslots]
    rfl

end Network
end CTracker
end Raiezau
