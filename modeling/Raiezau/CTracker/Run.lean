import Raiezau.CTracker.Protocol
import Raiezau.Machine.Run

/-!
# Run — the C tracker serving its clients one request at a time

The events are those of the tracker's life: a client connects, sends a request line, or disconnects.
`declaration` reads off a request what an accepted `announce` or `update` declares, and `latest` finds
the most recent one of a client in the history of a run.
-/

namespace Raiezau
namespace CTracker

open Memory CUtil Text Machine

inductive Event
  | connect (socket : Int) (addr : SockAddr)
  | request (c : Addr) (req : CString)
  | disconnect (c : Addr)
  deriving DecidableEq, Repr

/-- One event; `none` when it is not possible in the state or faults. -/
def stepFn (st : Tracker) : Event → Option Tracker
  | .connect socket addr => some (clientGetOrCreate st socket addr).1
  | .request c req => do
      let _ ← st.client c
      let (st', _) ← handleRequest st c req
      pure st'
  | .disconnect c => deleteClient st c

def Step (st : Tracker) (e : Event) (st' : Tracker) : Prop := stepFn st e = some st'

abbrev TrackerHistory := History Tracker Event

abbrev TrackerRun (h : TrackerHistory) (st : Tracker) : Prop := Machine.Run Step Tracker.init h st

/-! ## What a request declares -/

/-- The port of an accepted `announce` (an `update` gives none) and the keys of its two clauses. -/
structure Declaration where
  port : Option Nat
  seedKeys : List CString
  leechKeys : List CString
  deriving DecidableEq, Repr

/-- The keys of a seed clause cut into entries of four tokens. -/
def entryKeys : List CString → List CString
  | _ :: _ :: _ :: key :: tab => key :: entryKeys tab
  | _ => []

/-- A clause whose tokens do not come in fours declares no file. -/
def seedKeys (seedStr : CString) : List CString :=
  let tab := stringSplit seedStr [' ']
  if tab.length % 4 ≠ 0 then [] else entryKeys tab

def declarationOf (port : Option Nat) (req : CString) (seed leech : RegMatch) : Declaration :=
  { port := port
    seedKeys := seedKeys (substr req seed.so seed.eo)
    leechKeys := stringSplit (substr req leech.so leech.eo) [' '] }

/-- The declaration an accepted `announce` or `update` makes; `none` for every other request. -/
def declaration (req : CString) : Option Declaration :=
  match sscanfWord req with
  | none => none
  | some (reqName, reqValue) =>
      match getRequestHandler reqName with
      | some .announce =>
          (regexec announceRegexp reqValue).map fun pm =>
            declarationOf (some (toUInt16 (atoi (reqValue.drop (slot pm 1).so)))) reqValue
              (slot pm 2) (slot pm 3)
      | some .update =>
          (regexec updateRegexp reqValue).map fun pm =>
            declarationOf none reqValue (slot pm 1) (slot pm 2)
      | _ => none

/-- A declaration made in a state names the keys of its seed clause, and those of its leech clause that
are registered already. -/
def Declaration.Names (d : Declaration) (st : Tracker) (key : CString) : Prop :=
  key ∈ d.seedKeys ∨ (key ∈ d.leechKeys ∧ fileGetByKey st key ≠ none)

instance (d : Declaration) (st : Tracker) (key : CString) : Decidable (d.Names st key) := by
  unfold Declaration.Names
  infer_instance

/-- The endpoint key a client has once it has made a declaration. -/
def Declaration.endpoint (d : Declaration) (cl : Client) : Option CString :=
  match d.port with
  | some port => some (listenKey cl.addr port)
  | none => cl.listenAddrKey

/-- The declaration a step makes on behalf of `c`, if it does. -/
def declaredBy (c : Addr) : Event → Option Declaration
  | .request c' req => if c' = c then declaration req else none
  | _ => none

/-- The most recent declaration of a client, with the state it was made in. -/
def latest (c : Addr) : TrackerHistory → Option (Tracker × Declaration)
  | [] => none
  | (st, e) :: h =>
      match declaredBy c e with
      | some d => some (st, d)
      | none => latest c h

/-- The most recent declaration of `c` names `key`. -/
def LatestNames (h : TrackerHistory) (c : Addr) (key : CString) : Prop :=
  ∃ p ∈ latest c h, p.2.Names p.1 key

instance (h : TrackerHistory) (c : Addr) (key : CString) : Decidable (LatestNames h c key) :=
  inferInstanceAs (Decidable (∃ p ∈ latest c h, p.2.Names p.1 key))

/-! ## Client tables -/

/-- The table of file `f` holds client `c` under `key`. -/
def Tracker.Holds (st : Tracker) (f : Addr) (key : CString) (c : Addr) : Prop :=
  ∃ x ∈ st.file f, (key, c) ∈ x.clients

/-- The table of file `f` has an entry under `key`. -/
def Tracker.Occupied (st : Tracker) (f : Addr) (key : CString) : Prop := ∃ c, st.Holds f key c

/-- All entries of all client tables: file, key, client. -/
def Tracker.entries (st : Tracker) : List (Addr × CString × Addr) :=
  (List.range st.fileHeap.fresh).flatMap fun f =>
    (st.file f).toList.flatMap fun x => x.clients.map fun p => (f, p)

theorem Tracker.mem_entries {st : Tracker} {f c : Addr} {key : CString} :
    (f, key, c) ∈ st.entries ↔ st.Holds f key c := by
  simp only [Tracker.entries, Tracker.Holds, List.mem_flatMap, List.mem_range, Option.mem_toList,
    List.mem_map, Prod.mk.injEq, Option.mem_def]
  constructor
  · rintro ⟨f', -, x, hx, p, hp, rfl, rfl⟩
    exact ⟨x, hx, hp⟩
  · rintro ⟨x, hx, hp⟩
    exact ⟨f, Heap.lt_fresh_of_read hx, x, hx, _, hp, rfl, rfl⟩

theorem Tracker.forall_holds_iff {st : Tracker} {Q : Addr → CString → Addr → Prop} :
    (∀ f key c, st.Holds f key c → Q f key c) ↔ ∀ e ∈ st.entries, Q e.1 e.2.1 e.2.2 :=
  ⟨fun h _ he => h _ _ _ (mem_entries.1 he), fun h _ _ _ hh => h _ (mem_entries.2 hh)⟩

instance (st : Tracker) (f : Addr) (key : CString) (c : Addr) : Decidable (st.Holds f key c) :=
  decidable_of_iff _ Tracker.mem_entries

instance (st : Tracker) (f : Addr) (key : CString) : Decidable (st.Occupied f key) :=
  decidable_of_iff (∃ e ∈ st.entries, e.1 = f ∧ e.2.1 = key) <| by
    constructor
    · rintro ⟨⟨f, k, c⟩, he, rfl, rfl⟩
      exact ⟨c, Tracker.mem_entries.1 he⟩
    · rintro ⟨c, hh⟩
      exact ⟨_, Tracker.mem_entries.2 hh, rfl, rfl⟩

/-! ## Replayed sessions -/

def filmKey : CString := "0123456789abcdef0123456789abcdef".toList

/-- `announce listen <port> seed [film 10 4 <filmKey>] leech []`. -/
def announceFilm (port : CString) : CString :=
  "announce listen ".toList ++ port ++ " seed [film 10 4 ".toList ++ filmKey ++ "] leech []".toList

def loopback : InAddr := ⟨127, 0, 0, 1⟩

/-- A session that replays without a fault is a run, and what a check finds at its end holds there. -/
theorem exists_run_of_replay (es : List Event) {P : TrackerHistory → Tracker → Prop}
    [∀ h st, Decidable (P h st)]
    (hre : (replay stepFn [] Tracker.init es).any (fun r => P r.1 r.2) = true) :
    ∃ h st, TrackerRun h st ∧ P h st :=
  Run.exists_of_replay id es hre

end CTracker
end Raiezau
