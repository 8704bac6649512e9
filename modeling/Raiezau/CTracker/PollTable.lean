import Mathlib.Algebra.Group.Nat.Defs
import Raiezau.CTracker.Network
import Raiezau.Memory.Block

/-!
# PollTable — the arrays behind the slots of the poll loop

`fds` and `clients` of `tracker/network.c` are two arrays of one size, of which the first `nfds` entries are in
use.  The functions here read and write the arrays as the code does; an access outside them, or of an entry that
was never written, has no model.  `Represents` says which list of slots a table stands for: every function does
to the arrays what its counterpart on lists does to the slots.
-/

namespace Raiezau
namespace CTracker
namespace Network

open Memory CUtil

/-! ## Model -/

structure PollFd where
  fd : Int
  events : PollBits
  revents : PollBits
  deriving DecidableEq, Repr

def Slot.pollFd (slot : Slot) : PollFd := { fd := slot.fd, events := slot.events, revents := slot.revents }

/-- The slot of a client that has just connected. -/
def newSlot (c : Addr) (socket : Int) : Slot :=
  { fd := socket, events := { pollin := true, pollrdhup := true }, revents := {}, client := some c }

def hungUp (r : PollBits) : Bool := r.pollhup || r.pollrdhup || r.pollerr || r.pollnval

structure PollTable where
  fds : Block PollFd
  clients : Block (Option Addr)
  nfds : Nat
  fdsBufferSize : Nat
  deriving DecidableEq, Repr

/-- `INITIAL_PEERFD_BUFSIZE`. -/
def initialPeerfdBufsize : Nat := 1000

def listenerFd (listener : Int) : PollFd := { fd := listener, events := { pollin := true }, revents := {} }

namespace PollTable

/-- The table before the first pass: the listener has the first entry. -/
def start (listener : Int) : PollTable :=
  { fds := ⟨some (listenerFd listener) :: List.replicate (initialPeerfdBufsize - 1) none⟩
    clients := .alloc initialPeerfdBufsize
    nfds := 1
    fdsBufferSize := initialPeerfdBufsize }

def storeFd (t : PollTable) (i : Nat) (x : PollFd) : Option PollTable := do
  let fds ← t.fds.store i x
  some { t with fds := fds }

def storeClient (t : PollTable) (i : Nat) (c : Option Addr) : Option PollTable := do
  let clients ← t.clients.store i c
  some { t with clients := clients }

/-- `fds_buffer_size` is a `uint32_t`. -/
def grown (t : PollTable) : PollTable :=
  if t.fdsBufferSize < t.nfds + 1 then
    let size := 2 * t.fdsBufferSize % 2 ^ 32
    { t with fdsBufferSize := size, fds := t.fds.realloc size, clients := t.clients.realloc size }
  else t

/-- `nfds` is an `int`. -/
def addNewClientToFds (t : PollTable) (c : Addr) (socket : Int) : Option PollTable :=
  if 2 ^ 31 ≤ t.nfds + 1 then none
  else do
    let t ← t.grown.storeClient t.nfds (some c)
    let t ← t.storeFd t.nfds
      { fd := socket, events := { pollin := true, pollrdhup := true }, revents := {} }
    some { t with nfds := t.nfds + 1 }

/-- The results that `poll` writes, from entry `i` on. -/
def setRevents : Nat → List PollBits → PollTable → Option PollTable
  | _, [], t => some t
  | i, r :: revents, t => do
      let x ← t.fds.load i
      let t ← t.storeFd i { x with revents := r }
      setRevents (i + 1) revents t

/-- The first half of a pass of `handle_incoming_data`, at entry `i`; `s` has the clients. -/
def rehear (s : State) (i : Nat) (t : PollTable) : Option PollTable :=
  if i < t.nfds then do
    let x ← t.fds.load i
    if x.fd < 0 then some t
    else do
      let entry ← t.clients.load i
      let c ← entry
      let y ← s.heap.read c
      if y.canRehear then t.storeFd i { x with events := { pollin := true, pollrdhup := true } } else some t
  else some t

/-- The second half. -/
def react (i : Nat) (t : PollTable) : Option PollTable := do
  let x ← t.fds.load i
  if hungUp x.revents then do
    let entry ← t.clients.load i
    match entry with
    | some _ => do
        let t ← t.storeClient i none
        t.storeFd i { fd := -1, events := {}, revents := {} }
    | none => some t
  else if x.revents.pollin then do
    let t ← t.storeFd i { x with events := { pollrdhup := true }, revents := {} }
    let _ ← t.clients.load i
    some t
  else some t

/-- The inner loop of `clean_fds`, at entry `i`. -/
def cleanSlot : Nat → Nat → PollTable → Option PollTable
  | 0, _, _ => none
  | fuel + 1, i, t => do
      let x ← t.fds.load i
      if x.fd = -1 then
        if i = t.nfds - 1 then do
          -- The sentinel makes the condition false; its entry is no longer in use.
          let t ← t.storeFd i { x with fd := -2 }
          cleanSlot fuel i { t with nfds := t.nfds - 1 }
        else do
          let last ← t.fds.load (t.nfds - 1)
          let t ← t.storeFd i last
          let lastClient ← t.clients.load (t.nfds - 1)
          let t ← t.storeClient i lastClient
          cleanSlot fuel i { t with nfds := t.nfds - 1 }
      else some t

/-- The outer loop. -/
def cleanFrom : Nat → Nat → PollTable → Option PollTable
  | 0, _, _ => none
  | fuel + 1, i, t =>
      if i < t.nfds then do
        let t ← cleanSlot (t.nfds + 1) i t
        cleanFrom fuel (i + 1) t
      else some t

def cleanFds (t : PollTable) : Option PollTable := cleanFrom t.nfds 1 t

/-! ## The slots of a table -/

/-- The table holds the slots, in order, behind the entry of the listener. -/
structure Represents (t : PollTable) (first : PollFd) (slots : List Slot) : Prop where
  nfds_eq : t.nfds = slots.length + 1
  size_fds : t.fds.size = t.fdsBufferSize
  size_clients : t.clients.size = t.fdsBufferSize
  nfds_le : t.nfds ≤ t.fdsBufferSize
  first_eq : t.fds.load 0 = some first
  entry : ∀ {i slot}, slots[i]? = some slot →
    t.fds.load (i + 1) = some slot.pollFd ∧ t.clients.load (i + 1) = some slot.client

variable {t t' : PollTable} {first : PollFd} {slots done rest : List Slot} {slot : Slot} {i : Nat}

theorem represents_start (listener : Int) : (start listener).Represents (listenerFd listener) [] where
  nfds_eq := rfl
  size_fds := List.length_cons.trans (congrArg (· + 1) List.length_replicate)
  size_clients := Block.size_alloc
  nfds_le := Nat.succ_le_of_lt (Nat.zero_lt_succ 999)
  first_eq := rfl
  entry := nofun

theorem getElem?_middle {α : Type} (xs ys : List α) (x : α) : (xs ++ x :: ys)[xs.length]? = some x := by
  rw [List.getElem?_append_right (Nat.le_refl _), Nat.sub_self, List.getElem?_cons_zero]

theorem Represents.lt_size (h : t.Represents first slots) (hi : i < slots.length) :
    i + 1 < t.fdsBufferSize := by
  have hn := h.nfds_eq
  have hle := h.nfds_le
  omega

/-- A store to one of the entries in use changes that slot. -/
theorem Represents.storeFd (h : t.Represents first slots) (hi : slots[i]? = some slot) (x : PollFd) :
    ∃ t', t.storeFd (i + 1) x = some t' ∧ t'.nfds = t.nfds ∧ t'.Represents first
      (slots.set i { fd := x.fd, events := x.events, revents := x.revents, client := slot.client }) := by
  have hlen : i < slots.length := (List.getElem?_eq_some_iff.1 hi).1
  obtain ⟨fds, hfds⟩ := Block.exists_store (h.size_fds.symm ▸ h.lt_size hlen) x
  refine ⟨{ t with fds := fds }, by rw [PollTable.storeFd, hfds]; rfl, rfl, ?_⟩
  refine
    { nfds_eq := by rw [List.length_set]; exact h.nfds_eq
      size_fds := (Block.size_store hfds).trans h.size_fds
      size_clients := h.size_clients
      nfds_le := h.nfds_le
      first_eq := (Block.load_store_of_ne hfds (Nat.succ_ne_zero i).symm).trans h.first_eq
      entry := fun {j y} hj => ?_ }
  -- The entry that is stored, and all others.
  by_cases hij : j = i
  · subst hij
    rw [List.getElem?_set_self hlen] at hj
    obtain rfl := Option.some.inj hj
    exact ⟨Block.load_store_self hfds, (h.entry hi).2⟩
  · rw [List.getElem?_set_ne (Ne.symm hij)] at hj
    obtain ⟨hfd, hclient⟩ := h.entry hj
    exact ⟨(Block.load_store_of_ne hfds fun heq => hij (Nat.succ.inj heq)).trans hfd, hclient⟩

theorem Represents.storeClient (h : t.Represents first slots) (hi : slots[i]? = some slot) (c : Option Addr) :
    ∃ t', t.storeClient (i + 1) c = some t' ∧ t'.nfds = t.nfds ∧
      t'.Represents first (slots.set i { slot with client := c }) := by
  have hlen : i < slots.length := (List.getElem?_eq_some_iff.1 hi).1
  obtain ⟨clients, hclients⟩ := Block.exists_store (h.size_clients.symm ▸ h.lt_size hlen) c
  refine ⟨{ t with clients := clients }, by rw [PollTable.storeClient, hclients]; rfl, rfl, ?_⟩
  refine
    { nfds_eq := by rw [List.length_set]; exact h.nfds_eq
      size_fds := h.size_fds
      size_clients := (Block.size_store hclients).trans h.size_clients
      nfds_le := h.nfds_le
      first_eq := h.first_eq
      entry := fun {j y} hj => ?_ }
  by_cases hij : j = i
  · subst hij
    rw [List.getElem?_set_self hlen] at hj
    obtain rfl := Option.some.inj hj
    exact ⟨(h.entry hi).1, Block.load_store_self hclients⟩
  · rw [List.getElem?_set_ne (Ne.symm hij)] at hj
    obtain ⟨hfd, hclient⟩ := h.entry hj
    exact ⟨hfd, (Block.load_store_of_ne hclients fun heq => hij (Nat.succ.inj heq)).trans hclient⟩

/-- The last entry goes out of use. -/
theorem Represents.dropLast (h : t.Represents first (slots ++ [slot])) :
    Represents { t with nfds := t.nfds - 1 } first slots := by
  have hn := h.nfds_eq
  rw [List.length_append, List.length_singleton] at hn
  refine
    { nfds_eq := by dsimp only; omega
      size_fds := h.size_fds
      size_clients := h.size_clients
      nfds_le := by
        have hle := h.nfds_le
        dsimp only
        omega
      first_eq := h.first_eq
      entry := fun {j y} hj => h.entry ?_ }
  rw [List.getElem?_append_left (List.getElem?_eq_some_iff.1 hj).1, hj]

theorem Represents.storeFirst (h : t.Represents first slots) (x : PollFd) :
    ∃ t', t.storeFd 0 x = some t' ∧ t'.Represents x slots := by
  have hpos : 0 < t.fdsBufferSize := by
    have hn := h.nfds_eq
    have hle := h.nfds_le
    omega
  obtain ⟨fds, hfds⟩ := Block.exists_store (h.size_fds.symm ▸ hpos) x
  refine ⟨{ t with fds := fds }, by rw [PollTable.storeFd, hfds]; rfl, ?_⟩
  exact
    { nfds_eq := h.nfds_eq
      size_fds := (Block.size_store hfds).trans h.size_fds
      size_clients := h.size_clients
      nfds_le := h.nfds_le
      first_eq := Block.load_store_self hfds
      entry := fun {j y} hj =>
        ⟨(Block.load_store_of_ne hfds (Nat.succ_ne_zero j)).trans (h.entry hj).1, (h.entry hj).2⟩ }

/-! ## `add_new_client_to_fds` -/

theorem Represents.grown (h : t.Represents first slots) (hlt : t.nfds + 1 < 2 ^ 31) :
    t.grown.Represents first slots ∧ t.grown.nfds = t.nfds ∧ t.nfds < t.grown.fdsBufferSize := by
  have hn := h.nfds_eq
  have hle := h.nfds_le
  unfold PollTable.grown
  split
  · next hfull =>
      -- The table is full, and smaller than `nfds` can get: the size stays within `uint32_t`.
      have hsize : 2 * t.fdsBufferSize % 2 ^ 32 = 2 * t.fdsBufferSize := Nat.mod_eq_of_lt (by omega)
      have hdouble : t.fdsBufferSize ≤ 2 * t.fdsBufferSize := Nat.le_mul_of_pos_left _ Nat.two_pos
      rw [hsize]
      refine ⟨?_, rfl, by dsimp only; omega⟩
      have hfds : t.fds.size ≤ 2 * t.fdsBufferSize := h.size_fds.symm ▸ hdouble
      have hclients : t.clients.size ≤ 2 * t.fdsBufferSize := h.size_clients.symm ▸ hdouble
      exact
        { nfds_eq := hn
          size_fds := Block.size_realloc hfds
          size_clients := Block.size_realloc hclients
          nfds_le := hle.trans hdouble
          first_eq := (Block.load_realloc hfds (Block.lt_size_of_load h.first_eq)).trans h.first_eq
          entry := fun {j y} hj => by
            obtain ⟨hfd, hclient⟩ := h.entry hj
            exact ⟨(Block.load_realloc hfds (Block.lt_size_of_load hfd)).trans hfd,
              (Block.load_realloc hclients (Block.lt_size_of_load hclient)).trans hclient⟩ }
  · next hroom => exact ⟨h, rfl, by omega⟩

theorem Represents.addNewClientToFds (h : t.Represents first slots) (hlt : t.nfds + 1 < 2 ^ 31) (c : Addr)
    (socket : Int) : ∃ t', t.addNewClientToFds c socket = some t' ∧
      t'.Represents first (slots ++ [newSlot c socket]) := by
  obtain ⟨hgrown, hn, hroom⟩ := h.grown hlt
  have hlen := h.nfds_eq
  obtain ⟨clients, hclients⟩ := Block.exists_store (hgrown.size_clients.symm ▸ hroom) (some c)
  obtain ⟨fds, hfds⟩ := Block.exists_store (hgrown.size_fds.symm ▸ hroom) (newSlot c socket).pollFd
  refine ⟨{ t.grown with clients := clients, fds := fds, nfds := t.nfds + 1 }, ?_, ?_⟩
  · have hstore : t.grown.fds.store t.nfds
        { fd := socket, events := { pollin := true, pollrdhup := true }, revents := {} } = some fds := hfds
    rw [PollTable.addNewClientToFds, if_neg (Nat.not_le_of_lt hlt), PollTable.storeClient, hclients]
    simp only [Option.bind_eq_bind, Option.bind_some, PollTable.storeFd, hn, hstore]
  have hold : ∀ {j}, j < slots.length + 1 → j ≠ t.nfds := fun hj heq => by omega
  refine
    { nfds_eq := by rw [List.length_append, List.length_singleton, ← hlen]
      size_fds := (Block.size_store hfds).trans hgrown.size_fds
      size_clients := (Block.size_store hclients).trans hgrown.size_clients
      nfds_le := hroom
      first_eq := (Block.load_store_of_ne hfds (hold (Nat.succ_pos _))).trans hgrown.first_eq
      entry := fun {j y} hj => ?_ }
  by_cases hlast : j < slots.length
  · rw [List.getElem?_append_left hlast] at hj
    obtain ⟨hfd, hclient⟩ := hgrown.entry hj
    have hne : j + 1 ≠ t.nfds := hold (Nat.succ_lt_succ hlast)
    exact ⟨(Block.load_store_of_ne hfds hne).trans hfd, (Block.load_store_of_ne hclients hne).trans hclient⟩
  · have hj' : j = slots.length := by
      have := (List.getElem?_eq_some_iff.1 hj).1
      rw [List.length_append, List.length_singleton] at this
      omega
    subst hj'
    rw [List.getElem?_concat_length] at hj
    obtain rfl := Option.some.inj hj
    rw [← hlen]
    exact ⟨Block.load_store_self hfds, Block.load_store_self hclients⟩

/-! ## `poll` and `handle_incoming_data` -/

theorem Represents.setReventsFrom {revents : List PollBits} (h : t.Represents first (done ++ rest))
    (hlen : rest.length = revents.length) : ∃ t', t.setRevents (done.length + 1) revents = some t' ∧
      t'.Represents first (done ++ Network.setRevents rest revents) := by
  induction revents generalizing t done rest with
  | nil =>
      obtain rfl := List.length_eq_zero_iff.1 hlen
      exact ⟨t, rfl, h⟩
  | cons r revents ih =>
      obtain ⟨x, rest, rfl⟩ := List.exists_cons_of_length_eq_add_one hlen
      have hat := getElem?_middle done rest x
      obtain ⟨t₁, hstore, -, h₁⟩ := h.storeFd hat { x.pollFd with revents := r }
      rw [List.set_append_right _ _ (Nat.le_refl _), Nat.sub_self, List.set_cons_zero,
        ← List.singleton_append, ← List.append_assoc] at h₁
      obtain ⟨t₂, hrest, h₂⟩ := ih h₁ (Nat.succ.inj hlen)
      rw [List.length_append, List.length_singleton] at hrest
      refine ⟨t₂, ?_, ?_⟩
      · rw [PollTable.setRevents, (h.entry hat).1]
        simp only [Option.bind_eq_bind, Option.bind_some, hstore]
        exact hrest
      · rw [List.append_assoc] at h₂
        exact h₂

/-- `poll` writes the results of all entries in use. -/
theorem Represents.setRevents {revents : List PollBits} (h : t.Represents first slots)
    (hlen : slots.length = revents.length) (r : PollBits) : ∃ t', t.setRevents 0 (r :: revents) = some t' ∧
      t'.Represents { first with revents := r } (Network.setRevents slots revents) := by
  obtain ⟨t₁, hstore, h₁⟩ := h.storeFirst { first with revents := r }
  have hbehind : t₁.Represents { first with revents := r } ([] ++ slots) := h₁
  obtain ⟨t₂, hrest, h₂⟩ := hbehind.setReventsFrom hlen
  refine ⟨t₂, ?_, h₂⟩
  rw [PollTable.setRevents, h.first_eq]
  simp only [Option.bind_eq_bind, Option.bind_some, hstore]
  exact hrest

/-- The loop has come to the end of the slots. -/
theorem Represents.rehear_end (h : t.Represents first slots) (s : State) (hi : slots.length ≤ i) :
    t.rehear s (i + 1) = some t := by
  have hn := h.nfds_eq
  exact if_neg (by omega)

theorem Represents.rehear_closed (h : t.Represents first slots) (s : State) (hi : slots[i]? = some slot)
    (hclosed : slot.fd < 0) : t.rehear s (i + 1) = some t := by
  have hin : i + 1 < t.nfds := by
    rw [h.nfds_eq]
    exact Nat.succ_lt_succ (List.getElem?_eq_some_iff.1 hi).1
  rw [PollTable.rehear, if_pos hin, (h.entry hi).1]
  exact if_pos hclosed

theorem Represents.rehear {s : State} {c : Addr} {y : Client} (h : t.Represents first slots)
    (hi : slots[i]? = some slot) (hopen : ¬ slot.fd < 0) (hc : slot.client = some c)
    (hread : s.heap.read c = some y) : ∃ t', t.rehear s (i + 1) = some t' ∧
      t'.Represents first (if y.canRehear then slots.set i slot.asking else slots) := by
  have hin : i + 1 < t.nfds := by
    rw [h.nfds_eq]
    exact Nat.succ_lt_succ (List.getElem?_eq_some_iff.1 hi).1
  obtain ⟨hfd, hclient⟩ := h.entry hi
  rw [PollTable.rehear, if_pos hin, hfd]
  simp only [Option.bind_eq_bind, Option.bind_some, hclient, hc, hread]
  rw [if_neg (show ¬ slot.pollFd.fd < 0 from hopen)]
  split
  · obtain ⟨t', hstore, -, h'⟩ :=
      h.storeFd hi { slot.pollFd with events := { pollin := true, pollrdhup := true } }
    exact ⟨t', hstore, h'⟩
  · exact ⟨t, rfl, h⟩

theorem Represents.react_hungUp {c : Addr} (h : t.Represents first slots) (hi : slots[i]? = some slot)
    (hup : hungUp slot.revents) (hc : slot.client = some c) :
    ∃ t', t.react (i + 1) = some t' ∧ t'.Represents first (slots.set i .closed) := by
  have hlen : i < slots.length := (List.getElem?_eq_some_iff.1 hi).1
  obtain ⟨hfd, hclient⟩ := h.entry hi
  obtain ⟨t₁, hstoreClient, -, h₁⟩ := h.storeClient hi none
  have hi₁ : (slots.set i { slot with client := none })[i]? = some { slot with client := none } :=
    List.getElem?_set_self hlen
  obtain ⟨t₂, hstore, -, h₂⟩ := h₁.storeFd hi₁ { fd := -1, events := {}, revents := {} }
  rw [List.set_set] at h₂
  refine ⟨t₂, ?_, h₂⟩
  rw [PollTable.react, hfd]
  simp only [Option.bind_eq_bind, Option.bind_some, hclient, hc, hstoreClient, hstore]
  exact if_pos hup

theorem Represents.react_input (h : t.Represents first slots) (hi : slots[i]? = some slot)
    (hup : ¬ hungUp slot.revents) (hin : slot.revents.pollin) :
    ∃ t', t.react (i + 1) = some t' ∧ t'.Represents first (slots.set i slot.quiet) := by
  have hlen : i < slots.length := (List.getElem?_eq_some_iff.1 hi).1
  obtain ⟨t', hstore, -, h'⟩ :=
    h.storeFd hi { slot.pollFd with events := { pollrdhup := true }, revents := {} }
  have hclient := (h'.entry (List.getElem?_set_self hlen)).2
  refine ⟨t', ?_, h'⟩
  rw [PollTable.react, (h.entry hi).1]
  simp only [Option.bind_eq_bind, Option.bind_some, hstore, hclient]
  exact (if_neg hup).trans (if_pos hin)

theorem Represents.react_idle (h : t.Represents first slots) (hi : slots[i]? = some slot)
    (hidle : if hungUp slot.revents then slot.client = none else ¬ slot.revents.pollin) :
    t.react (i + 1) = some t := by
  obtain ⟨hfd, hclient⟩ := h.entry hi
  rw [PollTable.react, hfd]
  simp only [Option.bind_eq_bind, Option.bind_some, hclient]
  split at hidle
  · next hup =>
      rw [hidle]
      exact if_pos hup
  · next hup => exact (if_neg hup).trans (if_neg hidle)

/-! ## `clean_fds` -/

/-- A unit of fuel for each slot is enough. -/
theorem cleanLoop_fuel {n : Nat} (hn : rest.length ≤ n) : cleanLoop n rest = cleanLoop rest.length rest := by
  induction n generalizing rest with
  | zero =>
      obtain rfl := List.length_eq_zero_iff.1 (Nat.le_zero.1 hn)
      rfl
  | succ n ih =>
      cases rest with
      | nil => rfl
      | cons x rest =>
          rw [List.length_cons] at hn ⊢
          rw [cleanLoop, cleanLoop]
          split
          · cases hlast : rest.getLast? with
            | none => rfl
            | some last =>
                have hlen : (last :: rest.dropLast).length = rest.length := by
                  have hpos : 0 < rest.length := by
                    rw [List.length_pos_iff]
                    rintro rfl
                    cases hlast
                  rw [List.length_cons, List.length_dropLast]
                  omega
                dsimp only
                rw [ih (hlen.le.trans (Nat.le_of_succ_le_succ hn)), hlen]
          · rw [ih (Nat.le_of_succ_le_succ hn)]

/-- What the inner loop leaves at a place: no slot, or an open one; the rest is still to be cleaned. -/
theorem Represents.cleanSlot {fuel : Nat} (h : t.Represents first (done ++ rest)) (hne : rest ≠ [])
    (hfuel : rest.length < fuel) : ∃ t' rest', t.cleanSlot fuel (done.length + 1) = some t' ∧
      t'.Represents first (done ++ rest') ∧ rest'.length ≤ rest.length ∧
      (∀ x ∈ rest'.head?, x.fd ≠ -1) ∧ cleanLoop rest.length rest = cleanLoop rest'.length rest' := by
  -- Each pass takes one entry out of use, so the entries that are left bound them.
  induction fuel generalizing t rest with
  | zero => exact absurd hfuel (Nat.not_lt_zero _)
  | succ fuel ih =>
      obtain ⟨x, tail, rfl⟩ := List.exists_cons_of_ne_nil hne
      have hat : (done ++ x :: tail)[done.length]? = some x := getElem?_middle done tail x
      have hload := (h.entry hat).1
      have hnfds := h.nfds_eq
      rw [List.length_append, List.length_cons] at hnfds
      rw [List.length_cons] at hfuel
      rw [PollTable.cleanSlot, hload, Option.bind_eq_bind, Option.bind_some]
      by_cases hclosed : x.fd = -1
      · rw [if_pos (show x.pollFd.fd = -1 from hclosed)]
        rcases List.eq_nil_or_concat tail with rfl | ⟨tail, last, rfl⟩
        · -- The slot is the last one: it goes out of use under the sentinel.
          obtain ⟨t₁, hstore, hn₁, h₁⟩ := h.storeFd hat { x.pollFd with fd := -2 }
          rw [List.set_append_right _ _ (Nat.le_refl _), Nat.sub_self, List.set_cons_zero] at h₁
          have hlast : done.length + 1 = t.nfds - 1 := by
            rw [List.length_nil] at hnfds
            omega
          obtain ⟨fuel, rfl⟩ : ∃ n, fuel = n + 1 := ⟨fuel - 1, by omega⟩
          have hload₁ : t₁.fds.load (done.length + 1) = some { x.pollFd with fd := -2 } :=
            (h₁.entry (getElem?_middle done [] _)).1
          refine ⟨{ t₁ with nfds := t₁.nfds - 1 }, [], ?_, ?_, Nat.zero_le _,
            fun _ hx => absurd hx (Option.not_mem_none _), ?_⟩
          · rw [if_pos hlast, hstore, Option.bind_eq_bind, Option.bind_some, PollTable.cleanSlot, hload₁]
            rfl
          · rw [List.append_nil]
            exact h₁.dropLast
          · rw [List.length_singleton, cleanLoop, if_pos hclosed]
            rfl
        · -- The last slot takes its place.
          have hlast : ¬ done.length + 1 = t.nfds - 1 := by
            rw [List.length_concat] at hnfds
            omega
          have hatLast : (done ++ x :: tail.concat last)[done.length + (tail.length + 1)]? = some last := by
            rw [List.getElem?_append_right (Nat.le_add_right _ _), Nat.add_sub_cancel_left,
              List.getElem?_cons_succ, List.concat_eq_append, List.getElem?_concat_length]
          have hfrom : t.nfds - 1 = done.length + (tail.length + 1) + 1 := by
            rw [List.length_concat] at hnfds
            omega
          obtain ⟨t₁, hstore, hn₁, h₁⟩ := h.storeFd hat last.pollFd
          rw [List.set_append_right _ _ (Nat.le_refl _), Nat.sub_self, List.set_cons_zero] at h₁
          have hatLast₁ : (done ++ ({ last with client := x.client } : Slot) ::
              tail.concat last)[done.length + (tail.length + 1)]? = some last := by
            rw [List.getElem?_append_right (Nat.le_add_right _ _), Nat.add_sub_cancel_left,
              List.getElem?_cons_succ, List.concat_eq_append, List.getElem?_concat_length]
          obtain ⟨t₂, hstoreClient, hn₂, h₂⟩ := h₁.storeClient (getElem?_middle done _ _) last.client
          rw [List.set_append_right _ _ (Nat.le_refl _), Nat.sub_self, List.set_cons_zero] at h₂
          have hfull : t₂.Represents first ((done ++ last :: tail) ++ [last]) := by
            rwa [List.append_assoc, List.cons_append, ← List.concat_eq_append]
          have h₃ := hfull.dropLast
          obtain ⟨t₃, rest', hclean, h₄, hle, hopen, hloop⟩ := ih h₃ (List.cons_ne_nil _ _) (by
            rw [List.length_concat] at hfuel
            exact Nat.lt_of_succ_lt_succ hfuel)
          refine ⟨t₃, rest', ?_, h₄, ?_, hopen, ?_⟩
          · rw [if_neg hlast]
            simp only [hn₁, hfrom, (h.entry hatLast).1, hstore, (h₁.entry hatLast₁).2, hstoreClient,
              Option.bind_eq_bind, Option.bind_some]
            exact hclean
          · rw [List.length_cons, List.length_concat]
            exact hle.trans (Nat.le_succ _)
          · rw [List.length_cons, List.length_concat, cleanLoop, if_pos hclosed, List.concat_eq_append,
              List.getLast?_concat, List.dropLast_concat]
            exact hloop
      · rw [if_neg (show ¬ x.pollFd.fd = -1 from hclosed)]
        refine ⟨t, x :: tail, rfl, h, Nat.le_refl _, fun y hy => ?_, rfl⟩
        rwa [← Option.some.inj hy]

/-- What the loop leaves from a place on. -/
theorem Represents.cleanFrom {fuel : Nat} (h : t.Represents first (done ++ rest)) (hfuel : rest.length < fuel) :
    ∃ t', t.cleanFrom fuel (done.length + 1) = some t' ∧
      t'.Represents first (done ++ cleanLoop rest.length rest) := by
  induction fuel generalizing t done rest with
  | zero => exact absurd hfuel (Nat.not_lt_zero _)
  | succ fuel ih =>
      have hnfds := h.nfds_eq
      rw [List.length_append] at hnfds
      rw [PollTable.cleanFrom]
      by_cases hne : rest = []
      · subst hne
        rw [List.length_nil] at hnfds
        refine ⟨t, if_neg (by omega), ?_⟩
        exact h
      · have hpos : 0 < rest.length := List.length_pos_iff.2 hne
        have hin : done.length + 1 < t.nfds := by omega
        have hinner : rest.length < t.nfds + 1 := by omega
        obtain ⟨t₁, rest', hslot, h₁, hle, hopen, hloop⟩ := h.cleanSlot hne hinner
        rw [if_pos hin, hslot, Option.bind_eq_bind, Option.bind_some, hloop]
        cases rest' with
        | nil =>
            have hn₁ := h₁.nfds_eq
            rw [List.append_nil] at h₁ hn₁
            obtain ⟨fuel, rfl⟩ : ∃ n, fuel = n + 1 := ⟨fuel - 1, by omega⟩
            refine ⟨t₁, ?_, by rw [List.length_nil, cleanLoop, List.append_nil]; exact h₁⟩
            rw [PollTable.cleanFrom, if_neg (by omega)]
        | cons x rest' =>
            have hx : ¬ x.fd = -1 := hopen x rfl
            rw [List.length_cons] at hle
            have h₂ : t₁.Represents first ((done ++ [x]) ++ rest') := by
              rw [List.append_assoc]
              exact h₁
            obtain ⟨t₂, hrest, h₃⟩ := ih h₂ (by omega)
            rw [List.length_append, List.length_singleton] at hrest
            refine ⟨t₂, hrest, ?_⟩
            rw [List.length_cons, cleanLoop, if_neg hx]
            rw [List.append_assoc] at h₃
            exact h₃

/-- `clean_fds` does to the arrays what `cleanFds` does to the slots. -/
theorem Represents.cleanFds (h : t.Represents first slots) :
    ∃ t', t.cleanFds = some t' ∧ t'.Represents first (Network.cleanFds slots) := by
  have hnfds := h.nfds_eq
  have hfrom : t.Represents first ([] ++ slots) := h
  obtain ⟨t', hclean, h'⟩ := hfrom.cleanFrom (show slots.length < t.nfds by omega)
  exact ⟨t', hclean, h'⟩

end PollTable

end Network
end CTracker
end Raiezau
