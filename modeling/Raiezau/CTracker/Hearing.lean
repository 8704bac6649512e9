import Raiezau.CTracker.Lifetime

/-!
# Hearing — whose turn it is

A connection passes from hand to hand: its slot asks for input, a thread has its request, the loop is to ask
again (`can_rehear`).  `Life.Change` lists what one step of the program can do to the life of one client, and
every step does one of these to each client (`step_change`).  `Life.Heard` is what follows: a client with a
slot has no other, and of the three exactly one is the case.
-/

namespace Raiezau
namespace CTracker
namespace Network

open Memory CUtil Machine

variable {s s' : State} {c d : Addr} {x : Client} {i j : Nat}

/-! ## Changes of one life -/

namespace Life

variable {v v' : Life}

/-- What a step can do to the life of a client. -/
inductive Change (v : Life) : Life → Prop where
  | same : Change v v
  | connected {x : Client} (hcell : v.cell = none) (hrehear : x.canRehear = false) :
      Change v { v with cell := some x, created := true, held := v.held + 1, listening := v.listening + 1 }
  | reheard {x : Client} (hcell : v.cell = some x) (hrehear : x.canRehear = true) :
      Change v { v with cell := some { x with canRehear := false }, listening := v.listening + 1 }
  | started {x : Client} (hcell : v.cell = some x) (hlistening : 0 < v.listening) :
      Change v
        { v with
          cell := some { x with refCount := x.refCount + 1 }
          listening := v.listening - 1
          pending := v.pending + 1
          active := v.active + 1 }
  | answered {x : Client} (hcell : v.cell = some x) (hactive : 0 < v.active) :
      Change v { v with cell := some { x with canRehear := true }, active := v.active - 1 }
  | hungUp {v' : Life} (hheld : v'.held = v.held - 1) : Change v v'
  /-- A thread releases the client, which is deleted or keeps what it has. -/
  | released {x : Client} {v' : Life} (hcell : v.cell = some x)
      (hcell' : v'.cell = none ∨ ∃ n, v'.cell = some { x with refCount := n }) (hheld : v'.held = v.held)
      (hlistening : v'.listening = v.listening) (hactive : v'.active = v.active) : Change v v'

/-- Whoever has a slot has one slot, and it is one party's turn. -/
def Heard (v : Life) : Prop :=
  0 < v.held → v.held = 1 ∧ ∃ x, v.cell = some x ∧ v.active + x.canRehear.toNat + v.listening = 1

theorem Heard.change (hheard : v.Heard) (hok : v.Ok) (hok' : v'.Ok) (h : Change v v') : v'.Heard := by
  cases h with
  | same => exact hheard
  | connected hcell hrehear =>
      obtain ⟨husers, hactive, hlistening, -⟩ := hok.gone hcell
      unfold users at husers
      refine fun _ => ⟨?_, _, rfl, ?_⟩
      · dsimp only
        omega
      · rw [hrehear, Bool.toNat_false]
        dsimp only
        omega
  | reheard hcell hrehear =>
      intro hheld
      obtain ⟨hone, y, hy, hturn⟩ := hheard hheld
      obtain rfl := Option.some.inj (hcell.symm.trans hy)
      rw [hrehear, Bool.toNat_true] at hturn
      exact ⟨hone, _, rfl, by simp only [Bool.toNat_false]; omega⟩
  | started hcell hlistening =>
      intro hheld
      obtain ⟨hone, y, hy, hturn⟩ := hheard hheld
      obtain rfl := Option.some.inj (hcell.symm.trans hy)
      exact ⟨hone, _, rfl, by dsimp only; omega⟩
  | answered hcell hactive =>
      intro hheld
      obtain ⟨hone, y, hy, hturn⟩ := hheard hheld
      obtain rfl := Option.some.inj (hcell.symm.trans hy)
      exact ⟨hone, _, rfl, by simp only [Bool.toNat_true]; omega⟩
  | hungUp hheld =>
      -- The slot was the only one.
      intro hpos
      have := (hheard (by omega)).1
      omega
  | released hcell hcell' hheld hlistening hactive =>
      intro hpos
      obtain ⟨hone, y, hy, hturn⟩ := hheard (hheld ▸ hpos)
      obtain rfl := Option.some.inj (hcell.symm.trans hy)
      rcases hcell' with hgone | ⟨n, hleft⟩
      · have husers := (hok'.gone hgone).1
        unfold users at husers
        omega
      · exact ⟨hheld.trans hone, _, hleft, by rw [hlistening, hactive]; exact hturn⟩

end Life

/-! ## Steps -/

theorem rehearSlot_change {slot : Slot} (hinv : Inv s) (hi : s.slots[i]? = some slot)
    (h : rehearSlot s i slot = some s') (d : Addr) : Life.Change (s.life d) (s'.life d) := by
  unfold rehearSlot at h
  obtain ⟨c, hclient, h⟩ := Option.bind_eq_some_iff.1 h
  obtain ⟨x, hread, h⟩ := Option.bind_eq_some_iff.1 h
  split at h
  · next hrehear =>
      cases h
      have hi' : ∀ f, (s.modifyClient c f).slots[i]? = some slot := fun _ => hi
      by_cases hd : d = c
      · subst hd
        -- It did not ask for input: that was not its turn.
        have hquiet : slot.events.pollin.toNat = 0 := by
          have hone := ((hinv.life d).live hread).2.2.2.2
          have hle : (slot.listens d).toNat ≤ (s.life d).listening := toNat_le_countP _ hi
          rw [listens_self hclient] at hle
          rw [hrehear, Bool.toNat_true] at hone
          omega
        rw [life_setSlot_self (hi' _) slot.asking hclient hclient, life_modify_self, hread, hquiet]
        exact .reheard hread hrehear
      · rw [life_setSlot_of_ne (hi' _) slot.asking (holds_eq_false hclient hd)
          (holds_eq_false hclient hd), life_modify_of_ne hd]
        exact .same
  · cases h
    exact .same

theorem hangup_change {slot closed : Slot} (hi : s.slots[i]? = some slot) (hclient : slot.client = some c)
    (hclosed : closed.client = none) (hdrop : Drops s c x s') (d : Addr) :
    Life.Change (s.life d) ((s'.setSlot i closed).life d) := by
  have hi' : s'.slots[i]? = some slot := by rw [hdrop.slots, hi]
  by_cases hd : d = c
  · subst hd
    rw [life_closeSlot hi' closed hclient hclosed, (hdrop.counts d).1]
    exact .hungUp rfl
  · have hempty : closed.holds d = false := by simp [Slot.holds, hclosed]
    rw [life_setSlot_of_ne hi' closed (holds_eq_false hclient hd) hempty, hdrop.life_of_ne hd]
    exact .same

theorem startThread_change {slot : Slot} (hi : s.slots[i]? = some slot) (hclient : slot.client = some c)
    (hasked : slot.events.pollin = true)
    (h : startServerReqhandlerThread (s.setSlot i slot.quiet) (some c) = some s') (d : Addr) :
    Life.Change (s.life d) (s'.life d) := by
  have hquiet : slot.quiet.events.pollin = false := rfl
  unfold startServerReqhandlerThread at h
  obtain ⟨t, hinc, h⟩ := Option.bind_eq_some_iff.1 h
  obtain ⟨x, hread, rfl⟩ := clientIncRef_eq hinc
  cases h
  by_cases hd : d = c
  · subst hd
    have hlistening : 0 < s.listening d := List.countP_pos_iff.2
      ⟨slot, List.mem_of_getElem? hi, (listens_self hclient).trans hasked⟩
    have hpending : Handler.pendingOn d ⟨d, .started⟩ = true := by simp [Handler.pendingOn]
    have hactive : Handler.activeOn d ⟨d, .started⟩ = true := by simp [Handler.activeOn]
    rw [life_addHandler, life_modify_self, life_setSlot_self hi slot.quiet hclient hclient, hread, hasked, hquiet,
      hpending, hactive]
    exact .started hread hlistening
  · rw [life_addHandler_of_ne hd, life_modify_of_ne hd,
      life_setSlot_of_ne hi slot.quiet (holds_eq_false hclient hd) (holds_eq_false hclient hd)]
    exact .same

theorem reactSlot_change {slot : Slot} (hinv : Inv s) (hi : s.slots[i]? = some slot)
    (h : reactSlot s i slot = some s') (d : Addr) : Life.Change (s.life d) (s'.life d) := by
  obtain ⟨hrevents, -⟩ := hinv.slots slot (List.mem_of_getElem? hi)
  unfold reactSlot at h
  split at h
  · cases hclient : slot.client with
    | none =>
        rw [hclient] at h
        cases h
        exact .same
    | some c =>
        rw [hclient] at h
        obtain ⟨t, hdec, h⟩ := Option.bind_eq_some_iff.1 h
        obtain ⟨x, hdrop⟩ := clientDecRef_drops hdec
        cases h
        exact hangup_change hi hclient rfl hdrop d
  · split at h
    · next hpollin =>
        cases hclient : slot.client with
        | none =>
            rw [hclient] at h
            cases h
            have hempty : slot.holds d = false := by simp [Slot.holds, hclient]
            rw [life_setSlot_of_ne hi slot.quiet hempty hempty]
            exact .same
        | some c =>
            rw [hclient] at h
            exact startThread_change hi hclient (hrevents hpollin) h d
    · cases h
      exact .same

theorem request_change {h : Handler} (hj : s.handlers[j]? = some h) (hphase : h.phase = .started) (d : Addr) :
    Life.Change (s.life d) ((s.setHandler j (h.moveTo .handled)).life d) := by
  by_cases hd : d = h.client
  · subst hd
    have hpending : (h.pendingOn h.client).toNat ≤ s.pending h.client := toNat_le_countP _ hj
    have hactive : (h.activeOn h.client).toNat ≤ s.active h.client := toNat_le_countP _ hj
    have hkeep : Handler.pendingOn h.client (h.moveTo .handled) = h.pendingOn h.client := by
      simp [Handler.pendingOn, Handler.moveTo, hphase]
    have hkeep' : Handler.activeOn h.client (h.moveTo .handled) = h.activeOn h.client := by
      simp [Handler.activeOn, Handler.moveTo, hphase]
    rw [life_setHandler hj (h.moveTo .handled), hkeep, hkeep', Nat.sub_add_cancel hpending, Nat.sub_add_cancel hactive]
    exact .same
  · rw [life_setHandler_of_ne hj (h.moveTo .handled) rfl hd]
    exact .same

theorem setCanRehear_change {h : Handler} (hj : s.handlers[j]? = some h)
    (hread : s.heap.read h.client = some x) (hphase : h.phase = .handled) (d : Addr) :
    Life.Change (s.life d) (((s.modifyClient h.client fun x => { x with canRehear := true }).setHandler j
      (h.moveTo .reheard)).life d) := by
  have hj' : ∀ f, (s.modifyClient h.client f).handlers[j]? = some h := fun _ => hj
  by_cases hd : d = h.client
  · subst hd
    have hpending : (h.pendingOn h.client).toNat ≤ s.pending h.client := toNat_le_countP _ hj
    have hactive : (h.activeOn h.client).toNat ≤ s.active h.client := toNat_le_countP _ hj
    have hbefore : h.activeOn h.client = true := by simp [Handler.activeOn, hphase]
    have hafter : Handler.activeOn h.client (h.moveTo .reheard) = false := by
      simp [Handler.activeOn, Handler.moveTo]
    have hkeep : Handler.pendingOn h.client (h.moveTo .reheard) = h.pendingOn h.client := by
      simp [Handler.pendingOn, Handler.moveTo, hphase]
    rw [hbefore] at hactive
    rw [life_setHandler (hj' _) (h.moveTo .reheard), life_modify_self, hread, hbefore, hafter, hkeep]
    change Life.Change _ { s.life h.client with
      cell := some { x with canRehear := true }
      pending := s.pending h.client - (h.pendingOn h.client).toNat + (h.pendingOn h.client).toNat
      active := s.active h.client - 1 }
    rw [Nat.sub_add_cancel hpending]
    exact .answered hread hactive
  · rw [life_setHandler_of_ne (hj' _) (h.moveTo .reheard) rfl hd, life_modify_of_ne hd]
    exact .same

theorem release_change {h : Handler} (hj : s.handlers[j]? = some h) (hphase : h.phase = .reheard)
    (hdrop : Drops s h.client x s') (d : Addr) :
    Life.Change (s.life d) ((s'.setHandler j (h.moveTo .released)).life d) := by
  have hj' : s'.handlers[j]? = some h := by rw [hdrop.handlers, hj]
  by_cases hd : d = h.client
  · subst hd
    have hactive : h.activeOn h.client = false := by simp [Handler.activeOn, hphase]
    have hactive' : Handler.activeOn h.client (h.moveTo .released) = false := by
      simp [Handler.activeOn, Handler.moveTo]
    obtain ⟨hheldEq, hlisteningEq, -, hactiveEq⟩ := hdrop.counts h.client
    have hcell : s'.heap.read h.client = none ∨ ∃ n, s'.heap.read h.client = some { x with refCount := n } := by
      rw [hdrop.cell]
      split
      · exact .inl rfl
      · exact .inr ⟨_, rfl⟩
    rw [life_setHandler hj' (h.moveTo .released), hactive, hactive']
    exact .released hdrop.read hcell hheldEq hlisteningEq hactiveEq
  · rw [life_setHandler_of_ne hj' (h.moveTo .released) rfl hd, hdrop.life_of_ne hd]
    exact .same

theorem accept_change {socket : Int} {connKey : CString} (hkey : htGetEntry s.clients connKey = none)
    (h : handleNewConnection s socket connKey = some s') (d : Addr) :
    Life.Change (s.life d) (s'.life d) := by
  unfold handleNewConnection clientGetOrCreate addNewClientToFds at h
  rw [hkey] at h
  obtain ⟨t, hinc, h⟩ := Option.bind_eq_some_iff.1 h
  obtain ⟨y, hy, rfl⟩ := clientIncRef_eq hinc
  obtain ⟨x, hx, h⟩ := Option.bind_eq_some_iff.1 h
  cases h
  have hnew : ∀ z, (s.addClient connKey z).heap.read s.heap.fresh = some z :=
    fun z => Heap.read_alloc_fresh _ z
  rw [State.read_modifyClient, if_pos rfl, hnew, Option.map_some] at hx
  cases hx
  by_cases hd : d = s.heap.fresh
  · subst hd
    rw [life_addSlot, holds_self rfl, listens_self rfl, life_modify_self, hnew, life_addClient_self]
    exact .connected (x := ⟨connKey, socket, 0 + 1, false⟩) s.heap.read_fresh rfl
  · rw [life_addSlot_of_ne (holds_eq_false rfl hd), life_modify_of_ne hd, life_addClient_of_ne hd]
    exact .same

theorem poll_life {revents : List PollBits} {ready : Bool} {position : Position}
    (hallowed : Allowed s.slots revents) (d : Addr) :
    State.life { s with
      listenerReady := ready, slots := setRevents s.slots revents, position := position } d = s.life d := by
  have hheld := countP_setRevents hallowed (Slot.holds d) fun _ _ => rfl
  have hlistening := countP_setRevents hallowed (Slot.listens d) fun _ _ => rfl
  ext1 <;> try rfl
  · exact hheld
  · exact hlistening

theorem clean_life (hinv : Inv s) (d : Addr) :
    State.life { s with slots := cleanFds s.slots, position := .poll } d = s.life d := by
  have hcount : ∀ p : Slot → Bool, (∀ slot, slot.client = none → p slot = false) →
      (cleanFds s.slots).countP p = s.slots.countP p := by
    intro p hp
    rw [cleanFds, (cleanLoop_perm (le_refl s.slots.length)).countP_eq, List.countP_filter]
    refine List.countP_congr fun slot hslot => ?_
    rcases (hinv.slots slot hslot).2 with ⟨-, hnone⟩ | ⟨hfd, -⟩
    · simp [hp slot hnone]
    · have hopen : slot.fd ≠ -1 := by omega
      simp [hopen]
  have hholds : ∀ slot : Slot, slot.client = none → slot.holds d = false := by
    intro slot hnone
    simp [Slot.holds, hnone]
  ext1 <;> try rfl
  · exact hcount _ hholds
  · exact hcount _ fun slot hnone => listens_eq_false (hholds slot hnone)

theorem incoming_change (hinv : Inv s) (h : incoming s = some s') (d : Addr) :
    Life.Change (s.life d) (s'.life d) := by
  unfold incoming at h
  split at h
  · split at h
    · cases h
      exact .same
    · next slot hi =>
        split at h
        · cases h
          exact .same
        · obtain ⟨t, ht, h⟩ := Option.bind_eq_some_iff.1 h
          cases h
          exact rehearSlot_change hinv hi ht d
  · split at h
    · cases h
    · next slot hi =>
        obtain ⟨t, ht, h⟩ := Option.bind_eq_some_iff.1 h
        cases h
        exact reactSlot_change hinv hi ht d
  · cases h

theorem step_change {e : Event} (hinv : Inv s) (h : step s e = some s') (d : Addr) :
    Life.Change (s.life d) (s'.life d) := by
  cases e with
  | poll ready revents =>
      dsimp only [step] at h
      split at h
      · next hguard =>
          cases h
          rw [poll_life hguard.2]
          exact .same
      · cases h
  | interrupted =>
      dsimp only [step] at h
      split at h
      · cases h
        rw [poll_life (allowed_zero s.slots)]
        exact .same
      · cases h
  | accept socket connKey =>
      dsimp only [step] at h
      split at h
      · next hguard =>
          obtain ⟨t, ht, h⟩ := Option.bind_eq_some_iff.1 h
          cases h
          exact accept_change hguard.2.2.2 ht d
      · cases h
  | noConnection =>
      dsimp only [step] at h
      split at h
      · cases h
        exact .same
      · cases h
  | incoming => exact incoming_change hinv h d
  | clean =>
      dsimp only [step] at h
      split at h
      · cases h
        rw [clean_life hinv]
        exact .same
      · cases h
  | request j =>
      obtain ⟨hd, hj, h⟩ := Option.bind_eq_some_iff.1 h
      obtain ⟨x, hread, h⟩ := Option.bind_eq_some_iff.1 h
      split at h
      · next hphase =>
          cases h
          exact request_change hj hphase d
      · cases h
  | setCanRehear j =>
      obtain ⟨hd, hj, h⟩ := Option.bind_eq_some_iff.1 h
      obtain ⟨x, hread, h⟩ := Option.bind_eq_some_iff.1 h
      split at h
      · next hphase =>
          cases h
          exact setCanRehear_change hj hread hphase d
      · cases h
  | decRef j =>
      obtain ⟨hd, hj, h⟩ := Option.bind_eq_some_iff.1 h
      split at h
      · next hphase =>
          obtain ⟨t, ht, h⟩ := Option.bind_eq_some_iff.1 h
          obtain ⟨x, hdrop⟩ := clientDecRef_drops ht
          cases h
          exact release_change hj hphase hdrop d
      · cases h

/-! ## All runs -/

/-- The invariant of the loop together with the turns. -/
structure Turns (s : State) : Prop extends Inv s where
  heard : ∀ c, (s.life c).Heard

theorem turns_init : Turns State.init := ⟨inv_init, fun _ h => absurd h (Nat.lt_irrefl 0)⟩

theorem Turns.step {e : Event} (hturns : Turns s) (h : step s e = some s') : Turns s' := by
  have hinv' := step_inv hturns.toInv h
  exact ⟨hinv', fun c => (hturns.heard c).change (hturns.life c) (hinv'.life c) (step_change hturns.toInv h c)⟩

theorem run_turns {h : History State Event} (hrun : Run Step State.init h s) : Turns s :=
  hrun.invariant turns_init fun hturns hs => hturns.step hs

theorem Turns.slot {slot : Slot} (hturns : Turns s) (hi : s.slots[i]? = some slot)
    (hclient : slot.client = some c) :
    s.held c = 1 ∧ ∃ x, s.heap.read c = some x ∧
      s.active c + x.canRehear.toNat + slot.events.pollin.toNat = 1 := by
  obtain ⟨hone, x, hread, hturn⟩ := hturns.heard c (held_pos hi hclient)
  -- Without this slot the client has none, and none that asks for input.
  have hlife := life_closeSlot hi .closed hclient rfl
  have hothers : (s.setSlot i .closed).listening c ≤ (s.setSlot i .closed).held c := listening_le_held
  have hheld : (s.setSlot i .closed).held c = s.held c - 1 := congrArg Life.held hlife
  have hlistening : (s.setSlot i .closed).listening c = s.listening c - slot.events.pollin.toNat :=
    congrArg Life.listening hlife
  have hthis : (slot.listens c).toNat ≤ s.listening c := toNat_le_countP _ hi
  rw [listens_self hclient] at hthis
  simp only [State.life] at hone hturn
  exact ⟨hone, x, hread, by omega⟩

/-- Every slot in use is the only one of its client, and either it asks for input, or the loop is to make it
ask, or one thread has the client's request. -/
theorem slot_turn {h : History State Event} {slot : Slot} (hrun : Run Step State.init h s)
    (hi : s.slots[i]? = some slot) (hclient : slot.client = some c) :
    s.held c = 1 ∧ ∃ x, s.heap.read c = some x ∧
      s.active c + x.canRehear.toNat + slot.events.pollin.toNat = 1 :=
  (run_turns hrun).slot hi hclient

/-- One request, up to where the loop has yet to ask again. -/
def answeredSession : List Event :=
  [.poll true [], .accept 5 "127.0.0.1:4000".toList, .incoming, .incoming, .incoming, .clean,
    .poll false [{ pollin := true }], .noConnection, .incoming, .incoming, .incoming, .request 0, .setCanRehear 0]

theorem slot_turn_answered : ∃ h s x, Run Step State.init h s ∧ s.heap.read 0 = some x ∧ x.canRehear = true ∧
    s.active 0 = 0 ∧ s.listening 0 = 0 ∧ s.held 0 = 1 := by
  obtain ⟨h, s, hrun, hslot, hrehear, hactive, hlistening⟩ : ∃ h s, Run Step State.init h s ∧
      s.slots[0]? = some (Slot.mk 5 { pollrdhup := true } {} (some 0)) ∧
      (s.heap.read 0).map Client.canRehear = some true ∧ s.active 0 = 0 ∧ s.listening 0 = 0 :=
    Run.exists_of_replay id answeredSession
      (P := fun _ (s : State) => s.slots[0]? = some (Slot.mk 5 { pollrdhup := true } {} (some 0)) ∧
        (s.heap.read 0).map Client.canRehear = some true ∧ s.active 0 = 0 ∧ s.listening 0 = 0)
      (by decide +kernel)
  obtain ⟨hone, x, hread, hturn⟩ := slot_turn hrun hslot rfl
  rw [hread] at hrehear
  exact ⟨h, s, x, hrun, hread, Option.some.inj hrehear, hactive, hlistening, hone⟩

end Network
end CTracker
end Raiezau
