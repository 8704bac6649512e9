import Raiezau.CTracker.Hearing

/-!
# Wakeup — the signal that ends a request

A request thread sets `can_rehear`, releases the client and sends `SIGUSR1` to the loop, whose handler does
nothing: the signal matters only where it finds the loop in `poll`, which then returns.  It is the only signal
the loop lets through.  A client whose slot does not ask for input and that nobody will look at is deaf until
something else wakes the loop; `attended_iff` says which signals leave one so.
-/

namespace Raiezau
namespace CTracker
namespace Network
namespace Wakeup

open Memory CUtil Machine

/-! ## Model -/

/-- `killed` are the threads that have sent their signal; `woken` says that one found the loop in `poll`. -/
structure State where
  net : Network.State
  killed : List Nat
  woken : Bool
  deriving DecidableEq, Repr

def State.init : State := { net := Network.State.init, killed := [], woken := false }

inductive Event
  | net (e : Network.Event)
  /-- The thread sends its signal and ends. -/
  | pthreadKill (j : Nat)
  deriving DecidableEq, Repr

/-- Whether `poll` returns. -/
def wakes : Network.Event → Bool
  | .poll .. => true
  | .interrupted => true
  | _ => false

def step (s : State) : Event → Option State
  | .net e =>
      -- Nothing but the signal interrupts the call.
      if e = .interrupted ∧ s.woken = false then none
      else do
        let net ← Network.step s.net e
        some { s with net := net, woken := s.woken && !wakes e }
  | .pthreadKill j => do
      let h ← s.net.handlers[j]?
      if h.phase = .released ∧ j ∉ s.killed then
        some { s with killed := j :: s.killed, woken := s.woken || s.net.position = .poll }
      else none

def Step (s : State) (e : Event) (s' : State) : Prop := step s e = some s'

/-! ## Attention -/

/-- The loop looks at slot `i` before it sleeps. -/
def State.due (s : State) (i : Nat) : Bool :=
  match s.net.position with
  | .poll => s.woken
  | .accept => true
  | .rehear k => k ≤ i
  | .react k => k < i
  | .clean => false

/-- Thread `j` works for the client and has yet to send its signal. -/
def State.Owes (s : State) (c : Addr) (j : Nat) : Prop :=
  (s.net.handlers[j]?).map Handler.client = some c ∧ j ∉ s.killed

instance (s : State) (c : Addr) (j : Nat) : Decidable (s.Owes c j) := inferInstanceAs (Decidable (_ ∧ _))

/-- Every slot in use asks for input, or the loop is about to look at it, or a thread of its client is yet to
send its signal. -/
def State.Attended (s : State) : Prop :=
  ∀ i < s.net.slots.length, ∀ slot ∈ s.net.slots[i]?, ∀ c ∈ slot.client,
    slot.events.pollin ∨ s.due i ∨ ∃ j < s.net.handlers.length, s.Owes c j

instance (s : State) : Decidable s.Attended := by
  unfold State.Attended
  infer_instance

def State.OthersOwe (s : State) (c : Addr) (j : Nat) : Prop :=
  ∃ k < s.net.handlers.length, k ≠ j ∧ s.Owes c k

instance (s : State) (c : Addr) (j : Nat) : Decidable (s.OthersOwe c j) := by
  unfold State.OthersOwe
  infer_instance

/-- The signal of thread `j` finds the loop in `poll` or before the slot, or the slot asks already, or another
thread of the client is yet to send one. -/
def State.Timely (s : State) (j : Nat) : Prop :=
  ∀ h ∈ s.net.handlers[j]?, ∀ i < s.net.slots.length, ∀ slot ∈ s.net.slots[i]?, slot.client = some h.client →
    slot.events.pollin ∨ s.net.position = .poll ∨ s.due i ∨ s.OthersOwe h.client j

instance (s : State) (j : Nat) : Decidable (s.Timely j) := by
  unfold State.Timely
  infer_instance

def InTime (s : State) : Event → Prop
  | .net _ => True
  | .pthreadKill j => s.Timely j

instance (s : State) : ∀ e, Decidable (InTime s e)
  | .net _ => .isTrue trivial
  | .pthreadKill j => inferInstanceAs (Decidable (s.Timely j))

variable {s s' : State} {e : Network.Event} {net : Network.State} {c : Addr} {i j : Nat} {slot : Slot}

/-! ## What the threads keep -/

theorem State.Owes.lt (h : s.Owes c j) : j < s.net.handlers.length := by
  obtain ⟨hj, -⟩ := h
  by_contra hle
  rw [List.getElem?_eq_none (by omega)] at hj
  cases hj

theorem attended_iff_of : s.Attended ↔ ∀ i slot c, s.net.slots[i]? = some slot → slot.client = some c →
    slot.events.pollin ∨ s.due i ∨ ∃ j, s.Owes c j := by
  constructor
  · intro h i slot c hi hc
    obtain ⟨hlt, -⟩ := List.getElem?_eq_some_iff.1 hi
    rcases h i hlt slot hi c hc with h | h | ⟨j, -, h⟩
    · exact .inl h
    · exact .inr (.inl h)
    · exact .inr (.inr ⟨j, h⟩)
  · intro h i _ slot hi c hc
    rcases h i slot c hi hc with h | h | ⟨j, h⟩
    · exact .inl h
    · exact .inr (.inl h)
    · exact .inr (.inr ⟨j, h.lt, h⟩)

/-- The threads of `s` are in `t`, each for its client. -/
def Further (s t : Network.State) : Prop :=
  ∀ {j : Nat} {h : Handler}, s.handlers[j]? = some h →
    ∃ h', t.handlers[j]? = some h' ∧ h'.client = h.client ∧ (h.phase = .released → h'.phase = .released)

theorem further_of_eq {s t : Network.State} (h : t.handlers = s.handlers) : Further s t :=
  fun hj => ⟨_, h ▸ hj, rfl, id⟩

theorem further_setHandler {s : Network.State} {h : Handler} {phase : Phase} (hj : s.handlers[j]? = some h)
    (hphase : h.phase ≠ .released) : Further s (s.setHandler j (h.moveTo phase)) := by
  intro k x hk
  by_cases hkj : k = j
  · subst hkj
    obtain rfl := Option.some.inj (hj.symm.trans hk)
    obtain ⟨hlt, -⟩ := List.getElem?_eq_some_iff.1 hj
    exact ⟨h.moveTo phase, List.getElem?_set_self hlt, rfl, fun hreleased => absurd hreleased hphase⟩
  · exact ⟨x, (List.getElem?_set_ne (Ne.symm hkj)).trans hk, rfl, id⟩

theorem further_addHandler (s : Network.State) (x : Handler) : Further s (s.addHandler x) := fun hj =>
  ⟨_, (List.getElem?_append_left (List.getElem?_eq_some_iff.1 hj).1).trans hj, rfl, id⟩

theorem Further.owes (hfurther : Further s.net net) {woken : Bool} (h : s.Owes c j) :
    State.Owes { s with net := net, woken := woken } c j := by
  obtain ⟨x, hx, hclient⟩ := Option.map_eq_some_iff.1 h.1
  obtain ⟨y, hy, heq, -⟩ := hfurther hx
  exact ⟨Option.map_eq_some_iff.2 ⟨y, hy, heq.trans hclient⟩, h.2⟩

/-- The threads that have sent their signal have ended. -/
structure Inv (s : State) : Prop where
  turns : Turns s.net
  ended : ∀ j ∈ s.killed, ∃ h, s.net.handlers[j]? = some h ∧ h.phase = .released

theorem Inv.keep (hinv : Inv s) (h : Network.step s.net e = some net) (hfurther : Further s.net net)
    {woken : Bool} : Inv { s with net := net, woken := woken } := by
  refine ⟨hinv.turns.step h, fun j hj => ?_⟩
  obtain ⟨x, hx, hphase⟩ := hinv.ended j hj
  obtain ⟨y, hy, -, hkeep⟩ := hfurther hx
  exact ⟨y, hy, hkeep hphase⟩

/-- A thread that works on a request has its signal before it. -/
theorem Inv.owes_of_active (hinv : Inv s) (hactive : 0 < s.net.active c) : ∃ j, s.Owes c j := by
  obtain ⟨h, hmem, hon⟩ := List.countP_pos_iff.1 hactive
  obtain ⟨j, hj⟩ := List.mem_iff_getElem?.1 hmem
  simp only [Handler.activeOn, Bool.and_eq_true, Bool.or_eq_true, decide_eq_true_eq] at hon
  refine ⟨j, Option.map_eq_some_iff.2 ⟨h, hj, hon.1⟩, fun hkilled => ?_⟩
  obtain ⟨y, hy, hphase⟩ := hinv.ended j hkilled
  obtain rfl := Option.some.inj (hj.symm.trans hy)
  rw [hphase] at hon
  simp at hon

/-! ## Steps of the loop and the threads -/

theorem attended_of_due (h : ∀ i, s.due i = true) : s.Attended :=
  attended_iff_of.2 fun i _ _ _ _ => .inr (.inl (h i))

/-- Slots and position stay, and no thread is lost. -/
theorem attended_of_eq {woken : Bool} (hatt : s.Attended) (hslots : net.slots = s.net.slots)
    (hposition : net.position = s.net.position) (hwoken : woken = s.woken) (hfurther : Further s.net net) :
    State.Attended { s with net := net, woken := woken } := by
  subst hwoken
  refine attended_iff_of.2 fun i slot c hi hc => ?_
  have hdue : State.due { s with net := net, woken := s.woken } i = s.due i := by
    unfold State.due
    rw [hposition]
  rw [hdue]
  rcases attended_iff_of.1 hatt i slot c (hslots ▸ hi) hc with h | h | ⟨j, h⟩
  · exact .inl h
  · exact .inr (.inl h)
  · exact .inr (.inr ⟨j, hfurther.owes h⟩)

/-- After the first half of a pass at slot `k` only the later slots are due. -/
theorem attended_rehear {k : Nat} {t : Network.State} {woken : Bool} (hinv : Inv s) (hatt : s.Attended)
    (hposition : s.net.position = .rehear k) (hk : s.net.slots[k]? = some slot)
    (h : rehearSlot s.net k slot = some t) :
    State.Attended { s with net := t.moveTo (.react k), woken := woken } := by
  have hturns := hinv.turns
  unfold rehearSlot at h
  obtain ⟨c, hclient, h⟩ := Option.bind_eq_some_iff.1 h
  obtain ⟨x, hread, h⟩ := Option.bind_eq_some_iff.1 h
  obtain ⟨-, y, hy, hturn⟩ := hturns.slot hk hclient
  obtain rfl := Option.some.inj (hread.symm.trans hy)
  -- The other slots are what they were.
  have hother : ∀ {i slot d}, i ≠ k → s.net.slots[i]? = some slot → slot.client = some d →
      slot.events.pollin ∨ decide (k < i) = true ∨ ∃ j, s.Owes d j := by
    intro i slot d hne hi hd
    rcases attended_iff_of.1 hatt i slot d hi hd with h | h | h
    · exact .inl h
    · simp only [State.due, hposition, decide_eq_true_eq] at h
      exact .inr (.inl (decide_eq_true (by omega)))
    · exact .inr (.inr h)
  split at h
  · next hrehear =>
      cases h
      refine attended_iff_of.2 fun i slot' d hi hd => ?_
      by_cases hne : i = k
      · subst hne
        obtain ⟨hlt, -⟩ := List.getElem?_eq_some_iff.1 hk
        obtain rfl := Option.some.inj ((List.getElem?_set_self hlt).symm.trans hi)
        exact .inl rfl
      · exact hother hne ((List.getElem?_set_ne (Ne.symm hne)).symm.trans hi) hd
  · next hrehear =>
      cases h
      refine attended_iff_of.2 fun i slot' d hi hd => ?_
      by_cases hne : i = k
      · subst hne
        obtain rfl := Option.some.inj (hk.symm.trans hi)
        obtain rfl := Option.some.inj (hclient.symm.trans hd)
        -- It is the slot's turn, or a thread's.
        rw [Bool.eq_false_iff.2 hrehear, Bool.toNat_false] at hturn
        cases hpollin : slot.events.pollin with
        | true => exact .inl rfl
        | false =>
            rw [hpollin, Bool.toNat_false] at hturn
            exact .inr (.inr (hinv.owes_of_active (by omega)))
      · exact hother hne hi hd

/-- The second half changes at most its own slot, which is then closed, or has a new thread. -/
theorem reactSlot_slots {n t : Network.State} {k : Nat} (h : reactSlot n k slot = some t) :
    Further n t ∧ (t.slots = n.slots ∨ ∃ slot', t.slots = n.slots.set k slot' ∧
      ∀ d, slot'.client = some d → (t.handlers[n.handlers.length]?).map Handler.client = some d) := by
  unfold reactSlot at h
  split at h
  · cases hclient : slot.client with
    | none =>
        rw [hclient] at h
        cases h
        exact ⟨further_of_eq rfl, .inl rfl⟩
    | some c =>
        rw [hclient] at h
        obtain ⟨u, hdec, h⟩ := Option.bind_eq_some_iff.1 h
        obtain ⟨x, hdrop⟩ := clientDecRef_drops hdec
        cases h
        refine ⟨further_of_eq hdrop.handlers, .inr ⟨.closed, ?_, fun d hd => by cases hd⟩⟩
        exact congrArg (List.set · k Slot.closed) hdrop.slots
  · split at h
    · cases hclient : slot.client with
      | none =>
          rw [hclient] at h
          cases h
          refine ⟨further_of_eq rfl, .inr ⟨slot.quiet, rfl, fun d hd => ?_⟩⟩
          cases hclient.symm.trans hd
      | some c =>
          rw [hclient] at h
          obtain ⟨u, hinc, h⟩ := Option.bind_eq_some_iff.1 h
          obtain ⟨x, -, rfl⟩ := clientIncRef_eq hinc
          cases h
          refine ⟨further_addHandler _ _, .inr ⟨slot.quiet, rfl, fun d hd => ?_⟩⟩
          obtain rfl := Option.some.inj (hclient.symm.trans hd)
          exact congrArg (Option.map Handler.client) List.getElem?_concat_length
    · cases h
      exact ⟨further_of_eq rfl, .inl rfl⟩

theorem attended_react {k : Nat} {t : Network.State} {woken : Bool} (hinv : Inv s) (hatt : s.Attended)
    (hposition : s.net.position = .react k) (h : reactSlot s.net k slot = some t) :
    State.Attended { s with net := t.moveTo (.rehear (k + 1)), woken := woken } := by
  obtain ⟨hfurther, hslots⟩ := reactSlot_slots h
  have hother : ∀ {i slot d}, s.net.slots[i]? = some slot → slot.client = some d →
      slot.events.pollin ∨ decide (k + 1 ≤ i) = true ∨
        ∃ j, State.Owes { s with net := t.moveTo (.rehear (k + 1)), woken := woken } d j := by
    intro i slot d hi hd
    rcases attended_iff_of.1 hatt i slot d hi hd with h | h | ⟨j, h⟩
    · exact .inl h
    · simp only [State.due, hposition, decide_eq_true_eq] at h
      exact .inr (.inl (decide_eq_true (by omega)))
    · have hkeep : State.Owes { s with net := t, woken := woken } d j := hfurther.owes h
      exact .inr (.inr ⟨j, hkeep⟩)
  refine attended_iff_of.2 fun i slot₁ d hi hd => ?_
  rcases hslots with hslots | ⟨slot', hslots, hthread⟩
  · exact hother (hslots ▸ hi) hd
  · change t.slots[i]? = some slot₁ at hi
    rw [hslots] at hi
    by_cases hne : i = k
    · subst hne
      have hlt : i < s.net.slots.length := by
        have := (List.getElem?_eq_some_iff.1 hi).1
        rwa [List.length_set] at this
      obtain rfl := Option.some.inj ((List.getElem?_set_self hlt).symm.trans hi)
      -- No thread had the number of the new one.
      refine .inr (.inr ⟨s.net.handlers.length, hthread d hd, fun hkilled => ?_⟩)
      obtain ⟨x, hx, -⟩ := hinv.ended _ hkilled
      exact absurd (List.getElem?_eq_some_iff.1 hx).1 (Nat.lt_irrefl _)
    · exact hother ((List.getElem?_set_ne (Ne.symm hne)).symm.trans hi) hd

theorem rehearSlot_handlers {n t : Network.State} {k : Nat} (h : rehearSlot n k slot = some t) :
    t.handlers = n.handlers := by
  unfold rehearSlot at h
  obtain ⟨c, -, h⟩ := Option.bind_eq_some_iff.1 h
  obtain ⟨x, -, h⟩ := Option.bind_eq_some_iff.1 h
  split at h <;> cases h <;> rfl

theorem step_further {n t : Network.State} (h : Network.step n e = some t) : Further n t := by
  cases e with
  | poll ready revents =>
      dsimp only [Network.step] at h
      split at h <;> cases h
      exact further_of_eq rfl
  | interrupted =>
      dsimp only [Network.step] at h
      split at h <;> cases h
      exact further_of_eq rfl
  | accept socket connKey =>
      dsimp only [Network.step] at h
      split at h
      · next hguard =>
          obtain ⟨u, hu, h⟩ := Option.bind_eq_some_iff.1 h
          cases h
          unfold handleNewConnection clientGetOrCreate addNewClientToFds at hu
          rw [hguard.2.2.2] at hu
          obtain ⟨v, hinc, hu⟩ := Option.bind_eq_some_iff.1 hu
          obtain ⟨y, -, rfl⟩ := clientIncRef_eq hinc
          obtain ⟨x, -, hu⟩ := Option.bind_eq_some_iff.1 hu
          cases hu
          exact further_of_eq rfl
      · cases h
  | noConnection =>
      dsimp only [Network.step] at h
      split at h <;> cases h
      exact further_of_eq rfl
  | incoming =>
      dsimp only [Network.step] at h
      unfold incoming at h
      split at h
      · split at h
        · cases h
          exact further_of_eq rfl
        · split at h
          · cases h
            exact further_of_eq rfl
          · obtain ⟨u, hu, h⟩ := Option.bind_eq_some_iff.1 h
            cases h
            exact further_of_eq (rehearSlot_handlers hu)
      · split at h
        · cases h
        · obtain ⟨u, hu, h⟩ := Option.bind_eq_some_iff.1 h
          cases h
          exact (reactSlot_slots hu).1
      · cases h
  | clean =>
      dsimp only [Network.step] at h
      split at h <;> cases h
      exact further_of_eq rfl
  | request j =>
      obtain ⟨hd, hj, h⟩ := Option.bind_eq_some_iff.1 h
      obtain ⟨x, -, h⟩ := Option.bind_eq_some_iff.1 h
      split at h
      · next hphase =>
          cases h
          exact further_setHandler hj (by rw [hphase]; decide)
      · cases h
  | setCanRehear j =>
      obtain ⟨hd, hj, h⟩ := Option.bind_eq_some_iff.1 h
      obtain ⟨x, -, h⟩ := Option.bind_eq_some_iff.1 h
      split at h
      · next hphase =>
          cases h
          exact further_setHandler (s := n.modifyClient _ _) hj (by rw [hphase]; decide)
      · cases h
  | decRef j =>
      obtain ⟨hd, hj, h⟩ := Option.bind_eq_some_iff.1 h
      split at h
      · next hphase =>
          obtain ⟨u, hu, h⟩ := Option.bind_eq_some_iff.1 h
          obtain ⟨x, hdrop⟩ := clientDecRef_drops hu
          cases h
          intro k y hk
          rw [← hdrop.handlers] at hj hk
          exact further_setHandler hj (by rw [hphase]; decide) hk
      · cases h

theorem attended_clean {woken : Bool} (hatt : s.Attended) (hposition : s.net.position = .clean) :
    State.Attended { s with
      net := { s.net with slots := cleanFds s.net.slots, position := .poll }, woken := woken } := by
  refine attended_iff_of.2 fun i slot c hi hc => ?_
  have hmem := (cleanLoop_perm (le_refl s.net.slots.length)).subset (List.mem_of_getElem? hi)
  obtain ⟨k, hk⟩ := List.mem_iff_getElem?.1 (List.mem_of_mem_filter hmem)
  rcases attended_iff_of.1 hatt k slot c hk hc with h | h | h
  · exact .inl h
  · simp [State.due, hposition] at h
  · exact .inr (.inr h)

theorem attended_incoming (hinv : Inv s) (hatt : s.Attended) (h : incoming s.net = some net) :
    State.Attended { s with net := net, woken := s.woken && !wakes .incoming } := by
  unfold incoming at h
  split at h
  · next k hposition =>
      split at h
      · next hnone =>
          cases h
          -- The pass is over: no slot is left that is still due.
          refine attended_iff_of.2 fun i slot c hi hc => ?_
          rcases attended_iff_of.1 hatt i slot c hi hc with h | h | h
          · exact .inl h
          · have hlt : i < s.net.slots.length := (List.getElem?_eq_some_iff.1 hi).1
            have hle := List.getElem?_eq_none_iff.1 hnone
            simp only [State.due, hposition, decide_eq_true_eq] at h
            omega
          · exact .inr (.inr h)
      · next slot hk =>
          split at h
          · next hclosed =>
              cases h
              have hempty : slot.client = none := by
                rcases (hinv.turns.slots slot (List.mem_of_getElem? hk)).2 with ⟨-, hnone⟩ | ⟨hopen, -⟩
                · exact hnone
                · omega
              refine attended_iff_of.2 fun i slot' c hi hc => ?_
              rcases attended_iff_of.1 hatt i slot' c hi hc with h | h | h
              · exact .inl h
              · have hne : i ≠ k := by
                  rintro rfl
                  obtain rfl := Option.some.inj (hk.symm.trans hi)
                  cases hempty.symm.trans hc
                simp only [State.due, hposition, decide_eq_true_eq] at h
                exact .inr (.inl (decide_eq_true (by omega)))
              · exact .inr (.inr h)
          · obtain ⟨t, ht, h⟩ := Option.bind_eq_some_iff.1 h
            cases h
            exact attended_rehear hinv hatt hposition hk ht
  · next k hposition =>
      split at h
      · cases h
      · obtain ⟨t, ht, h⟩ := Option.bind_eq_some_iff.1 h
        cases h
        exact attended_react hinv hatt hposition ht
  · cases h

theorem clientDecRef_position {n t : Network.State} (h : clientDecRef n c = some t) : t.position = n.position := by
  unfold clientDecRef at h
  obtain ⟨x, -, h⟩ := Option.bind_eq_some_iff.1 h
  split at h
  · obtain ⟨y, -, h⟩ := Option.bind_eq_some_iff.1 h
    cases h
    rfl
  · cases h
    rfl

theorem attended_net (hinv : Inv s) (hatt : s.Attended) (h : Network.step s.net e = some net) :
    State.Attended { s with net := net, woken := s.woken && !wakes e } := by
  have hfurther : Further s.net net := step_further h
  cases e with
  | poll ready revents =>
      dsimp only [Network.step] at h
      split at h <;> cases h
      exact attended_of_due fun _ => rfl
  | interrupted =>
      dsimp only [Network.step] at h
      split at h <;> cases h
      exact attended_of_due fun _ => rfl
  | accept socket connKey =>
      dsimp only [Network.step] at h
      split at h
      · obtain ⟨u, -, h⟩ := Option.bind_eq_some_iff.1 h
        cases h
        exact attended_of_due fun i => decide_eq_true (Nat.zero_le i)
      · cases h
  | noConnection =>
      dsimp only [Network.step] at h
      split at h <;> cases h
      exact attended_of_due fun i => decide_eq_true (Nat.zero_le i)
  | incoming => exact attended_incoming hinv hatt h
  | clean =>
      dsimp only [Network.step] at h
      split at h
      · next hposition =>
          cases h
          exact attended_clean hatt hposition
      · cases h
  | request j =>
      obtain ⟨hd, -, h⟩ := Option.bind_eq_some_iff.1 h
      obtain ⟨x, -, h⟩ := Option.bind_eq_some_iff.1 h
      split at h <;> cases h
      exact attended_of_eq hatt rfl rfl (Bool.and_true _) hfurther
  | setCanRehear j =>
      obtain ⟨hd, -, h⟩ := Option.bind_eq_some_iff.1 h
      obtain ⟨x, -, h⟩ := Option.bind_eq_some_iff.1 h
      split at h <;> cases h
      exact attended_of_eq hatt rfl rfl (Bool.and_true _) hfurther
  | decRef j =>
      obtain ⟨hd, -, h⟩ := Option.bind_eq_some_iff.1 h
      split at h
      · obtain ⟨u, hu, h⟩ := Option.bind_eq_some_iff.1 h
        obtain ⟨x, hdrop⟩ := clientDecRef_drops hu
        cases h
        have hposition : u.position = s.net.position := clientDecRef_position hu
        exact attended_of_eq hatt hdrop.slots hposition (Bool.and_true _) hfurther
      · cases h

/-! ## Signals -/

theorem step_inv {e : Event} (hinv : Inv s) (h : Step s e s') : Inv s' := by
  cases e with
  | net e =>
      dsimp only [Step, step] at h
      split at h
      · cases h
      · obtain ⟨net, hnet, h⟩ := Option.bind_eq_some_iff.1 h
        cases h
        exact hinv.keep hnet (step_further hnet)
  | pthreadKill j =>
      obtain ⟨x, hj, h⟩ := Option.bind_eq_some_iff.1 h
      split at h
      · next hguard =>
          cases h
          refine ⟨hinv.turns, fun k hk => ?_⟩
          rcases List.mem_cons.1 hk with rfl | hk
          · exact ⟨x, hj, hguard.1⟩
          · exact hinv.ended k hk
      · cases h

theorem due_of_kill {killed : List Nat} : State.due { s with
    killed := killed, woken := s.woken || s.net.position = .poll } i =
      (s.net.position = .poll || s.due i) := by
  unfold State.due
  cases hposition : s.net.position <;> simp

theorem owes_of_kill {woken : Bool} {k : Nat} :
    State.Owes { s with killed := j :: s.killed, woken := woken } c k ↔ k ≠ j ∧ s.Owes c k := by
  unfold State.Owes
  rw [List.mem_cons, not_or]
  exact ⟨fun ⟨h, hne, hk⟩ => ⟨hne, h, hk⟩, fun ⟨hne, h, hk⟩ => ⟨h, hne, hk⟩⟩

/-- A signal leaves a client deaf unless it comes in time. -/
theorem attended_kill_iff {x : Handler} (hatt : s.Attended) (hj : s.net.handlers[j]? = some x) :
    State.Attended { s with killed := j :: s.killed, woken := s.woken || s.net.position = .poll } ↔ s.Timely j := by
  rw [attended_iff_of]
  constructor
  · intro h y hy i _ slot hi hc
    obtain rfl := Option.some.inj (hj.symm.trans hy)
    rcases h i slot x.client hi hc with h | h | ⟨k, h⟩
    · exact .inl h
    · rw [due_of_kill, Bool.or_eq_true, decide_eq_true_eq] at h
      exact .inr (h.imp id .inl)
    · obtain ⟨hne, h⟩ := owes_of_kill.1 h
      exact .inr (.inr (.inr ⟨k, h.lt, hne, h⟩))
  · intro h i slot c hi hc
    rw [due_of_kill, Bool.or_eq_true, decide_eq_true_eq]
    by_cases hxc : c = x.client
    · subst hxc
      rcases h x hj i (List.getElem?_eq_some_iff.1 hi).1 slot hi hc with h | h | h | ⟨k, -, hne, h⟩
      · exact .inl h
      · exact .inr (.inl (.inl h))
      · exact .inr (.inl (.inr h))
      · exact .inr (.inr ⟨k, owes_of_kill.2 ⟨hne, h⟩⟩)
    · rcases attended_iff_of.1 hatt i slot c hi hc with hasks | hdue | ⟨k, howes⟩
      · exact .inl hasks
      · exact .inr (.inl (.inr hdue))
      · -- The thread of another client is another thread.
        refine .inr (.inr ⟨k, owes_of_kill.2 ⟨?_, howes⟩⟩)
        rintro rfl
        have hclient := howes.1
        rw [hj] at hclient
        exact hxc (Option.some.inj hclient).symm

theorem step_attended_iff {e : Event} (hinv : Inv s) (hatt : s.Attended) (h : Step s e s') :
    s'.Attended ↔ InTime s e := by
  cases e with
  | net e =>
      dsimp only [Step, step] at h
      split at h
      · cases h
      · obtain ⟨net, hnet, h⟩ := Option.bind_eq_some_iff.1 h
        cases h
        exact ⟨fun _ => trivial, fun _ => attended_net hinv hatt hnet⟩
  | pthreadKill j =>
      obtain ⟨x, hj, h⟩ := Option.bind_eq_some_iff.1 h
      split at h
      · cases h
        exact attended_kill_iff hatt hj
      · cases h

theorem init_inv : Inv State.init := ⟨turns_init, fun _ h => absurd h (List.not_mem_nil)⟩

theorem attended_init : State.init.Attended := fun _ h => absurd h (Nat.not_lt_zero _)

/-- Every signal since the loop was last woken came in time. -/
def InTimeSinceWake : History State Event → Prop
  | [] => True
  | (_, .net e) :: h => wakes e ∨ InTimeSinceWake h
  | (s, .pthreadKill j) :: h => s.net.position = .poll ∨ (s.Timely j ∧ InTimeSinceWake h)

theorem attended_of_wakes (hwakes : wakes e = true) (h : Network.step s.net e = some net) {woken : Bool} :
    State.Attended { s with net := net, woken := woken } := by
  cases e with
  | poll ready revents =>
      dsimp only [Network.step] at h
      split at h <;> cases h
      exact attended_of_due fun _ => rfl
  | interrupted =>
      dsimp only [Network.step] at h
      split at h <;> cases h
      exact attended_of_due fun _ => rfl
  | _ => cases hwakes

/-- Whatever was missed before, a loop that has been woken looks at every slot again. -/
theorem attended_of_inTimeSinceWake {h : History State Event} (hrun : Run Step State.init h s)
    (hok : InTimeSinceWake h) : s.Attended := by
  have hboth : Inv s ∧ (InTimeSinceWake h → s.Attended) := by
    refine hrun.invariant_history (I := fun h s => Inv s ∧ (InTimeSinceWake h → s.Attended))
      ⟨init_inv, fun _ => attended_init⟩ ?_
    rintro h s e s' - ⟨hinv, hatt⟩ hs
    refine ⟨step_inv hinv hs, fun hok => ?_⟩
    cases e with
    | net e =>
        dsimp only [Step, step] at hs
        split at hs
        · cases hs
        · obtain ⟨net, hnet, hs⟩ := Option.bind_eq_some_iff.1 hs
          cases hs
          rcases hok with hwakes | hok
          · exact attended_of_wakes hwakes hnet
          · exact attended_net hinv (hatt hok) hnet
    | pthreadKill j =>
        rcases hok with hpoll | ⟨htimely, hok⟩
        · obtain ⟨x, -, hs⟩ := Option.bind_eq_some_iff.1 hs
          split at hs <;> cases hs
          exact attended_of_due fun i => by rw [due_of_kill, hpoll]; rfl
        · exact (step_attended_iff hinv (hatt hok) hs).2 htimely
  exact hboth.2 hok

/-- In a run of the loop, the request threads and their signals no client is ever left deaf exactly if every
signal comes in time. -/
theorem attended_iff {h : History State Event} (hrun : Run Step State.init h s) :
    Along (fun _ s => s.Attended) h s ↔ StepsMeet (fun _ s e => InTime s e) h :=
  Run.along_iff_stepsMeet_of_invariant (I := Inv) attended_init init_inv
    (fun _ hinv hatt hs => ⟨step_attended_iff hinv hatt hs, fun _ => step_inv hinv hs⟩) hrun

/-- The request is answered after the loop has passed the slot, and the signal comes before the loop sleeps. -/
def lateSession : List Event :=
  answeredSession.map .net ++ [.net (.decRef 0), .pthreadKill 0, .net .clean]

theorem attended_iff_late : ∃ h s, Run Step State.init h s ∧ s.net.position = .poll ∧ s.woken = false ∧
    s.net.listening 0 = 0 ∧ ¬ Along (fun _ s => s.Attended) h s := by
  obtain ⟨h, s, hrun, hpoll, hasleep, hdeaf, hlate⟩ : ∃ h s, Run Step State.init h s ∧
      s.net.position = .poll ∧ s.woken = false ∧ s.net.listening 0 = 0 ∧
        ¬ StepsMeet (fun _ s e => InTime s e) h :=
    Run.exists_of_replay id lateSession
      (P := fun h (s : State) => s.net.position = .poll ∧ s.woken = false ∧ s.net.listening 0 = 0 ∧
        ¬ StepsMeet (fun _ s e => InTime s e) h)
      (by decide +kernel)
  exact ⟨h, s, hrun, hpoll, hasleep, hdeaf, fun halong => hlate ((attended_iff hrun).1 halong)⟩

end Wakeup
end Network
end CTracker
end Raiezau
