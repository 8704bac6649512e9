import Mathlib.Data.Set.Insert
import Raiezau.CppTracker.Failure
import Raiezau.CppTracker.FileMgr

/-!
# Directory — what the C++ tracker keeps of what it is told

A listing has the sizes that a hash was first announced with and the peers that are listed under it.  `bookOf` says what
the events of a run make of the listings, by the clauses that were read, and `directory_of_run` that the tracker keeps
exactly these.  A seed entry with other sizes makes a file that no hash leads to, so it lists nobody.
-/

namespace Raiezau
namespace CppTracker

open Memory CUtil Machine

variable {st st' st₁ : Tracker} {p f : Addr} {k : CString} {u : Peer → Peer}

/-! ## Listings -/

@[ext]
structure Listing where
  fileSize : Nat
  pieceSize : Nat
  peers : Set Addr

def Listing.add (p : Addr) (l : Listing) : Listing := { l with peers := insert p l.peers }

abbrev Directory := CString → Option Listing

namespace Directory

/-- A seed entry makes a listing.  It enters one that is there if the sizes are the same. -/
def seed (p : Addr) (d : Directory) (e : Entry) : Directory := Function.update d e.hash <|
  match d e.hash with
  | none => some ⟨e.fileSize, e.pieceSize, {p}⟩
  | some l => some (if l.fileSize = e.fileSize ∧ l.pieceSize = e.pieceSize then l.add p else l)

/-- A hash enters the listing that is there. -/
def leech (p : Addr) (d : Directory) (hash : CString) : Directory :=
  Function.update d hash ((d hash).map (Listing.add p))

/-- The seed list of an update is read as hashes. -/
def read (announce : Bool) (p : Addr) (d : Directory) : Clause → Directory
  | .seed text => if announce then (entries (tokens text)).foldl (seed p) d else (tokens text).foldl (leech p) d
  | .leech text => (tokens text).foldl (leech p) d
  | .listen _ => d
  | .unexpected _ => d

end Directory

/-- What the listings are for a tracker. -/
def Tracker.directory (st : Tracker) : Directory := fun k =>
  ((st.fileMap.get k).bind st.file).map fun x => ⟨x.fileSize, x.pieceSize, {a | a ∈ x.peers}⟩

/-! ## Runs in the abstract -/

/-- The listings, and the ports of the peers that have announced. -/
structure Book where
  ports : Addr → Option Nat
  directory : Directory

def Book.empty : Book := ⟨fun _ => none, fun _ => none⟩

/-- The port that the clauses end up with. -/
def listenedPort (cls : List Clause) : Option Nat :=
  cls.foldl (fun port c => match c with
    | .listen argument => listenPort argument
    | _ => port) none

open Classical in
/-- A declaration is refused at once unless it is a first announce, or an update after one.  Else its clauses are read
up to the first that throws. -/
noncomputable def Book.step (b : Book) : Event → Book
  | .request p line =>
      match declaredOf line with
      | none => b
      | some (announce, cls) =>
          if (b.ports p).isSome = announce then b
          else
            { ports :=
                if announce ∧ GoesThrough announce cls then Function.update b.ports p (listenedPort cls) else b.ports
              directory := (readBefore announce cls).foldl (Directory.read announce p) b.directory }
  | .connect _ => b
  | .disconnect _ => b

noncomputable def bookOf : TrackerHistory → Book
  | [] => Book.empty
  | (_, e) :: h => (bookOf h).step e

/-- The tracker keeps the listings, and the ports of the peers that are there. -/
structure Keeps (b : Book) (st : Tracker) : Prop where
  registry : Registry st
  directory : st.directory = b.directory
  ports : ∀ {p q}, st.peer p = some q → b.ports p = if q.announced then some q.listeningPort else none
  port_lt : ∀ {p q}, st.peer p = some q → q.listeningPort < 2 ^ 16
  born : ∀ {p}, b.ports p ≠ none → p < st.peerHeap.fresh

/-! ## One file -/

theorem directory_of_get {x : File} (hget : st.fileMap.get k = some f) (hx : st.file f = some x) :
    st.directory k = some ⟨x.fileSize, x.pieceSize, {a | a ∈ x.peers}⟩ := by
  rw [Tracker.directory, hget, Option.bind_some, hx, Option.map_some]

theorem directory_of_none (hget : st.fileMap.get k = none) : st.directory k = none := by
  rw [Tracker.directory, hget]
  rfl

theorem file_of_directory {l : Listing} (h : st.directory k = some l) : ∃ f x, st.fileMap.get k = some f ∧
    st.file f = some x ∧ l = ⟨x.fileSize, x.pieceSize, {a | a ∈ x.peers}⟩ := by
  obtain ⟨x, hx, rfl⟩ := Option.map_eq_some_iff.1 h
  obtain ⟨f, hf, hx⟩ := Option.bind_eq_some_iff.1 hx
  exact ⟨f, x, hf, hx, rfl⟩

/-- The registered files of two hashes are two. -/
theorem Registry.hash_inj {k' : CString} (hreg : Registry st) (hk : st.fileMap.get k = some f)
    (hk' : st.fileMap.get k' = some f) : k = k' := by
  obtain ⟨x, hx, rfl⟩ := hreg hk
  obtain ⟨y, hy, rfl⟩ := hreg hk'
  rw [Option.some.inj (hx.symm.trans hy)]

/-- Adding a peer changes the peers of one file. -/
theorem addPeer_inv (h : addPeer st p f = some st') :
    st'.fileMap = st.fileMap ∧ st'.fileSet = st.fileSet ∧ st'.peerHeap = st.peerHeap ∧
      ∀ g, st'.file g = if g = f then (st.file g).map fun x => { x with peers := x.peers.insert p } else st.file g := by
  obtain ⟨x, -, h⟩ := Option.bind_eq_some_iff.1 h
  obtain rfl := Option.some.inj h
  exact ⟨rfl, rfl, rfl, fun g => file_modifyFile st f g _⟩

theorem addPeer_modifyPeer_inv (h : addPeer (st.modifyPeer p u) p f = some st') : st'.fileMap = st.fileMap ∧
    ∀ g, st'.file g = if g = f then (st.file g).map fun x => { x with peers := x.peers.insert p } else st.file g := by
  obtain ⟨hmap, -, -, hfile⟩ := addPeer_inv h
  exact ⟨hmap, hfile⟩

theorem directory_addPeer (hreg : Registry st) (hk : st.fileMap.get k = some f)
    (h : addPeer (st.modifyPeer p u) p f = some st') : st'.directory = st.directory.leech p k := by
  obtain ⟨hmap, hfile⟩ := addPeer_modifyPeer_inv h
  obtain ⟨x, hx, -⟩ := hreg hk
  funext k'
  by_cases hkk : k' = k
  · subst hkk
    have hx' : st'.file f = some { x with peers := x.peers.insert p } := by
      rw [hfile, if_pos rfl, hx]
      rfl
    rw [Directory.leech, Function.update_self, directory_of_get hk hx, directory_of_get (hmap ▸ hk) hx']
    simp [Listing.add, Set.insert_def]
  · rw [Directory.leech, Function.update_of_ne hkk]
    -- The file of another hash is another file.
    cases hk' : st.fileMap.get k' with
    | none => rw [directory_of_none hk', directory_of_none (hmap ▸ hk')]
    | some g =>
        obtain ⟨y, hy, -⟩ := hreg hk'
        have hne : g ≠ f := fun hgf => hkk (hreg.hash_inj hk' (hgf ▸ hk))
        have hy' : st'.file g = some y := by
          rw [hfile, if_neg hne, hy]
        rw [directory_of_get hk' hy, directory_of_get (hmap ▸ hk') hy']

/-- A file that no hash leads to. -/
theorem directory_addPeer_of_unlisted (hf : ∀ k, st.fileMap.get k ≠ some f)
    (h : addPeer (st.modifyPeer p u) p f = some st') : st'.directory = st.directory := by
  obtain ⟨hmap, hfile⟩ := addPeer_modifyPeer_inv h
  funext k
  unfold Tracker.directory
  rw [hmap]
  cases hk : st.fileMap.get k with
  | none => rfl
  | some g =>
      have hne : g ≠ f := fun hgf => hf k (hgf ▸ hk)
      rw [Option.bind_some, Option.bind_some, hfile, if_neg hne]

theorem Registry.ne_fresh (hreg : Registry st) (hk : st.fileMap.get k = some f) : f ≠ st.fileHeap.fresh := by
  obtain ⟨x, hx, -⟩ := hreg hk
  exact FileMgr.ne_fresh hx

theorem registerFile_directory (hreg : Registry st) (x : File) : (registerFile st x).1.directory =
    Function.update st.directory x.hash
      ((st.directory x.hash).or (some ⟨x.fileSize, x.pieceSize, {a | a ∈ x.peers}⟩)) := by
  funext k
  cases hk : st.fileMap.get k with
  | some g =>
      obtain ⟨y, hy, -⟩ := hreg hk
      have hk' : (registerFile st x).1.fileMap.get k = some g := by
        rw [FileMgr.get_registerFile, hk]
        rfl
      have hy' : (registerFile st x).1.file g = some y := by
        rw [FileMgr.file_registerFile, if_neg (hreg.ne_fresh hk), hy]
      rw [directory_of_get hk' hy']
      by_cases hx : k = x.hash
      · subst hx
        rw [Function.update_self, directory_of_get hk hy]
        rfl
      · rw [Function.update_of_ne hx, directory_of_get hk hy]
  | none =>
      have hk' := FileMgr.get_registerFile st x k
      rw [hk, Option.none_or] at hk'
      by_cases hx : k = x.hash
      · subst hx
        rw [if_pos rfl] at hk'
        rw [Function.update_self, directory_of_none hk, Option.none_or,
          directory_of_get hk' ((FileMgr.file_registerFile st x _).trans (if_pos rfl))]
      · rw [if_neg (Ne.symm hx)] at hk'
        rw [Function.update_of_ne hx, directory_of_none hk, directory_of_none hk']

theorem Directory.seed_of_none {d : Directory} {e : Entry} (h : d e.hash = none) (p : Addr) :
    d.seed p e = Function.update d e.hash (some ⟨e.fileSize, e.pieceSize, {p}⟩) := by
  rw [Directory.seed, h]

theorem Directory.seed_of_some {d : Directory} {e : Entry} {l : Listing} (h : d e.hash = some l) (p : Addr) :
    d.seed p e = if l.fileSize = e.fileSize ∧ l.pieceSize = e.pieceSize then d.leech p e.hash else d := by
  rw [Directory.seed, h]
  dsimp only
  split
  · rw [Directory.leech, h, Option.map_some]
  · rw [← h, Function.update_eq_self]

theorem get_of_directory (hreg : Registry st) : st.directory k = none ↔ st.fileMap.get k = none := by
  refine ⟨fun h => ?_, directory_of_none⟩
  by_contra hk
  obtain ⟨f, hf⟩ := Option.ne_none_iff_exists'.1 hk
  obtain ⟨x, hx, -⟩ := hreg hf
  rw [directory_of_get hf hx] at h
  cases h

/-- A new file is listed if its hash is new. -/
theorem directory_register {x : File} (hreg : Registry st) (hreg₁ : Registry (registerFile st x).1)
    (hx : x.peers = [])
    (h : addPeer ((registerFile st x).1.modifyPeer p u) p (registerFile st x).2 = some st') :
    st'.directory = if st.directory x.hash = none then
      st.directory.seed p ⟨x.fileSize, x.pieceSize, x.hash⟩ else st.directory := by
  have hnew := registerFile_directory hreg x
  split
  · next hnone =>
      have hget : (registerFile st x).1.fileMap.get x.hash = some (registerFile st x).2 := by
        rw [FileMgr.get_registerFile, (get_of_directory hreg).1 hnone, Option.none_or, if_pos rfl]
        rfl
      have hadd := directory_addPeer hreg₁ hget h
      rw [hadd, hnew, hnone, Option.none_or,
        Directory.seed_of_none (e := ⟨_, _, x.hash⟩) hnone, Directory.leech, Function.update_self,
        Function.update_idem, hx]
      simp [Listing.add]
  · next hsome =>
      obtain ⟨l, hl⟩ := Option.ne_none_iff_exists'.1 hsome
      have hunlisted : ∀ k, (registerFile st x).1.fileMap.get k ≠ some (registerFile st x).2 := by
        intro k hk
        rw [FileMgr.get_registerFile] at hk
        cases hold : st.fileMap.get k with
        | some g =>
            rw [hold] at hk
            exact hreg.ne_fresh hold (Option.some.inj hk)
        | none =>
            rw [hold, Option.none_or] at hk
            split at hk
            · next hxk => exact hsome (hxk ▸ directory_of_none hold)
            · cases hk
      have hadd := directory_addPeer_of_unlisted hunlisted h
      rw [hadd, hnew, hl, Option.some_or, ← hl, Function.update_eq_self]

/-- Finding the file of an entry and entering it. -/
theorem directory_seed (hreg : Registry st) {name : CString} {e : Entry}
    (hget : getFile st name e.fileSize e.pieceSize e.hash = some (st₁, f))
    (hadd : addPeer (st₁.modifyPeer p u) p f = some st') : st'.directory = st.directory.seed p e := by
  have hreg₁ := (getFile_finds hreg hget).registry
  unfold getFile at hget
  dsimp only at hget
  cases hk : st.fileMap.get e.hash with
  | none =>
      rw [hk] at hget
      obtain ⟨rfl, rfl⟩ := Prod.mk.inj (Option.some.inj hget)
      rw [directory_register hreg hreg₁ rfl hadd, if_pos (directory_of_none hk)]
  | some g =>
      obtain ⟨y, hy, hyk⟩ := hreg hk
      have hl := directory_of_get hk hy
      rw [hk] at hget
      simp only [hy, Option.bind_eq_bind, Option.bind_some] at hget
      -- `File::operator==` compares the sizes and the hash, and the hash is the same.
      have hequals : y.equals ⟨name, e.fileSize, e.pieceSize, e.hash, []⟩ = true ↔
          y.fileSize = e.fileSize ∧ y.pieceSize = e.pieceSize := by
        simp [File.equals, hyk]
      rw [Directory.seed_of_some hl]
      split at hget
      · next heq =>
          obtain ⟨rfl, rfl⟩ := Prod.mk.inj (Option.some.inj hget)
          rw [if_pos (hequals.1 heq)]
          exact directory_addPeer hreg hk hadd
      · next hne =>
          obtain ⟨rfl, rfl⟩ := Prod.mk.inj (Option.some.inj hget)
          have hsome : ¬ st.directory e.hash = none := by
            rw [hl]
            exact Option.some_ne_none _
          rw [if_neg (mt hequals.2 hne), directory_register hreg hreg₁ rfl hadd, if_neg hsome]

/-! ## Lists of files -/

theorem directory_seedEntry (hreg : Registry st) {name size piece hash : CString}
    (h : seedEntry p st name size piece hash = some st') :
    st'.directory = (entries [name, size, piece, hash]).foldl (Directory.seed p) st.directory := by
  unfold seedEntry at h
  unfold entries
  cases hsize : stoul size with
  | none =>
      rw [hsize] at h
      obtain rfl := Option.some.inj h
      rfl
  | some fileSize =>
      cases hpiece : stoul piece with
      | none =>
          rw [hsize, hpiece] at h
          obtain rfl := Option.some.inj h
          rfl
      | some pieceSize =>
          simp only [hsize, hpiece] at h
          obtain ⟨⟨st₁, f⟩, hget, h⟩ := Option.bind_eq_some_iff.1 h
          obtain ⟨x, -, hadd⟩ := Option.bind_eq_some_iff.1 h
          exact directory_seed (e := ⟨fileSize, pieceSize, hash⟩) hreg hget hadd

theorem registry_of_seedEntry (hreg : Registry st) {name size piece hash : CString}
    (h : seedEntry p st name size piece hash = some st') : Registry st' := by
  rcases seedEntry_inv hreg h with ⟨-, rfl⟩ | ⟨e, f, st₁, -, -, hfinds, hrec⟩
  · exact hreg
  · obtain ⟨x, hx, -⟩ := hfinds.file
    exact (hrec.enrolled hfinds.registry hx).registry

theorem directory_seedEntries (hreg : Registry st) {v : List CString} (h : seedEntries p st v = some st') :
    Registry st' ∧ st'.directory = (entries v).foldl (Directory.seed p) st.directory := by
  -- Four tokens at a time, as `seedEntries` takes them.
  induction st, v using seedEntries.induct with
  | case1 st name size piece hash v ih =>
      rw [seedEntries] at h
      obtain ⟨st₁, hone, hrest⟩ := Option.bind_eq_some_iff.1 h
      rw [entries_append_four, List.foldl_append, ← directory_seedEntry hreg hone]
      exact ih st₁ (registry_of_seedEntry hreg hone) hrest
  | case2 v st hshort =>
      rw [seedEntries] at h
      · obtain rfl := Option.some.inj h
        have hnil : entries v = [] := by
          rw [entries]
          exact hshort
        rw [hnil]
        exact ⟨hreg, rfl⟩
      · exact hshort

theorem directory_leechEntry (hreg : Registry st) (h : leechEntry p st k = some st') :
    Registry st' ∧ st'.directory = st.directory.leech p k := by
  unfold leechEntry at h
  cases hk : st.fileMap.get k with
  | none =>
      rw [hk] at h
      obtain rfl := Option.some.inj h
      refine ⟨hreg, ?_⟩
      rw [Directory.leech, directory_of_none hk, Option.map_none, ← directory_of_none hk, Function.update_eq_self]
  | some f =>
      rw [hk] at h
      obtain ⟨x, hx, hadd⟩ := Option.bind_eq_some_iff.1 h
      exact ⟨((addPeer_records hadd).enrolled hreg hx).registry, directory_addPeer hreg hk hadd⟩

theorem directory_parseAnnounceLeech (hreg : Registry st) {text : CString}
    (h : parseAnnounceLeech st p text = some st') :
    Registry st' ∧ st'.directory = (tokens text).foldl (Directory.leech p) st.directory :=
  foldlM_commutes (I := Registry) Tracker.directory directory_leechEntry
    (s := st.modifyPeer p fun q => { q with leech := [] }) hreg h

/-! ## Clauses -/

variable {announce : Bool} {cls : List Clause} {q : Peer} {line : CString}

theorem directory_applyClause (hreg : Registry st) {c : Clause} (h : applyClause announce p st c = some (st', .ok ())) :
    Registry st' ∧ st'.directory = st.directory.read announce p c := by
  have hleech : ∀ {text}, (parseAnnounceLeech st p text).map (fun st => (st, (.ok () : Except CString Unit))) =
        some (st', .ok ()) →
      Registry st' ∧ st'.directory = (tokens text).foldl (Directory.leech p) st.directory := by
    intro text h
    obtain ⟨st₁, hleech, h⟩ := Option.map_eq_some_iff.1 h
    obtain ⟨rfl, -⟩ := Prod.mk.inj h
    exact directory_parseAnnounceLeech hreg hleech
  cases announce with
  | true =>
      cases c with
      | listen argument =>
          rw [applyClause, if_pos rfl, announceClause] at h
          split at h
          · obtain ⟨rfl, -⟩ := Prod.mk.inj (Option.some.inj h)
            exact ⟨hreg, rfl⟩
          · cases (Prod.mk.inj (Option.some.inj h)).2
      | seed text =>
          have h' : parseAnnounceSeed st p text = some (st', .ok ()) := h
          unfold parseAnnounceSeed at h'
          dsimp only at h'
          split at h'
          · cases (Prod.mk.inj (Option.some.inj h')).2
          · obtain ⟨st₁, hseed, h'⟩ := Option.map_eq_some_iff.1 h'
            obtain ⟨rfl, -⟩ := Prod.mk.inj h'
            have hreg₁ : Registry (st.modifyPeer p fun q => { q with seed := [] }) := hreg
            exact directory_seedEntries hreg₁ hseed
      | leech text => exact hleech h
      | unexpected keyword => cases (Prod.mk.inj (Option.some.inj h)).2
  | false =>
      cases c with
      | listen argument => cases (Prod.mk.inj (Option.some.inj h)).2
      | seed text => exact hleech h
      | leech text => exact hleech h
      | unexpected keyword => cases (Prod.mk.inj (Option.some.inj h)).2

theorem directory_foldlM (hreg : Registry st) (h : cls.foldlM (accept (applyClause announce p)) st = some st') :
    Registry st' ∧ st'.directory = cls.foldl (Directory.read announce p) st.directory :=
  foldlM_commutes (I := Registry) Tracker.directory
    (fun hreg hc => directory_applyClause hreg (accept_eq_some.1 hc)) hreg h

theorem listenedPort_append (cls : List Clause) (c : Clause) : listenedPort (cls ++ [c]) =
    match c with
    | .listen argument => listenPort argument
    | _ => listenedPort cls := by
  unfold listenedPort
  rw [List.foldl_append]
  cases c <;> rfl

/-- The port of a peer is that of the last `listen` clause, or the one it had. -/
theorem port_of_foldlM (hreg : Registry st) (hq : st.peer p = some q)
    (h : cls.foldlM (accept (announceClause p)) st = some st') :
    ∃ q', st'.peer p = some q' ∧ q'.listeningPort = (listenedPort cls).getD q.listeningPort := by
  refine And.right (foldlM_done (P := fun done st' => Registry st' ∧ ∃ q', st'.peer p = some q' ∧
    q'.listeningPort = (listenedPort done).getD q.listeningPort) ⟨hreg, q, hq, rfl⟩ ?_ h)
  rintro done rest c st₁ st₂ - ⟨hreg₁, q₁, hq₁, hport⟩ hc
  have hc := accept_eq_some.1 hc
  have happly : applyClause true p st₁ c = some (st₂, .ok ()) := hc
  have hreg₂ : Registry st₂ := (directory_applyClause hreg₁ happly).1
  refine ⟨hreg₂, ?_⟩
  rw [listenedPort_append]
  cases c with
  | listen argument =>
      rw [announceClause] at hc
      split at hc
      · next port hlisten =>
          obtain ⟨rfl, -⟩ := Prod.mk.inj (Option.some.inj hc)
          exact ⟨_, peer_modifyPeer_self hq₁, by simp [hlisten]⟩
      · cases (Prod.mk.inj (Option.some.inj hc)).2
  | seed text =>
      obtain ⟨l, m, hs⟩ := parseAnnounceSeed_ok hreg₁ hq₁ hc
      exact ⟨_, hs.peer, hport⟩
  | leech text =>
      obtain ⟨st₃, hparse, hpair⟩ := Option.map_eq_some_iff.1 hc
      obtain ⟨rfl, -⟩ := Prod.mk.inj hpair
      obtain ⟨m, hl⟩ := parseAnnounceLeech_leeched hreg₁ hq₁ hparse
      exact ⟨_, hl.peer, hport⟩
  | unexpected keyword => cases (Prod.mk.inj (Option.some.inj hc)).2

theorem listenedPort_lt {port : Nat} (h : listenedPort cls = some port) : port < 2 ^ 16 := by
  induction cls using List.reverseRecOn with
  | nil => cases h
  | append_singleton cls c ih =>
      rw [listenedPort_append] at h
      cases c with
      | listen argument =>
          have hok := (listenPort_ok h).2
          omega
      | seed text => exact ih h
      | leech text => exact ih h
      | unexpected keyword => exact ih h

/-- The port after the clauses of either handler. -/
theorem port_lt_of_foldlM (hreg : Registry st) (hq : st.peer p = some q) (hlt : q.listeningPort < 2 ^ 16)
    {q' : Peer} (hq' : st'.peer p = some q') (h : cls.foldlM (accept (applyClause announce p)) st = some st') :
    q'.listeningPort < 2 ^ 16 := by
  cases announce with
  | true =>
      obtain ⟨q₁, hq₁, hport⟩ := port_of_foldlM hreg hq h
      obtain rfl := Option.some.inj (hq'.symm.trans hq₁)
      rw [hport]
      cases hlisten : listenedPort cls with
      | none => exact hlt
      | some port => exact listenedPort_lt hlisten
  | false =>
      obtain ⟨l, q₁, -, hq₁, -, -, hport⟩ := read_of_foldlM hreg hq h
      obtain rfl := Option.some.inj (hq'.symm.trans hq₁)
      rw [hport rfl]
      exact hlt

theorem listenedPort_isSome (hfine : ∀ c ∈ cls, c.Fine true) (h : ∃ argument, .listen argument ∈ cls) :
    (listenedPort cls).isSome := by
  induction cls using List.reverseRecOn with
  | nil =>
      obtain ⟨argument, ha⟩ := h
      cases ha
  | append_singleton cls c ih =>
      rw [listenedPort_append]
      obtain ⟨argument, ha⟩ := h
      cases c with
      | listen argument' =>
          have hc : Clause.Fine true (.listen argument') := hfine _ (by simp)
          exact Option.isSome_iff_ne_none.2 hc.2
      | seed text => exact ih (fun c hc => hfine c (by simp [hc])) ⟨argument, by simpa using ha⟩
      | leech text => exact ih (fun c hc => hfine c (by simp [hc])) ⟨argument, by simpa using ha⟩
      | unexpected keyword => exact ih (fun c hc => hfine c (by simp [hc])) ⟨argument, by simpa using ha⟩

/-! ## Runs -/

variable {b : Book} {h : TrackerHistory}

theorem keeps_init : Keeps Book.empty Tracker.init where
  registry := fun _ _ hk => by cases hk
  directory := rfl
  ports := fun hq => by cases hq
  port_lt := fun hq => by cases hq
  born := fun hne => absurd rfl hne

/-- The record of one peer changes, with the entries of the book that are its own. -/
theorem Keeps.update {l : List Addr} (hk : Keeps b st) (henr : Enrolled p l st st') {q q' : Peer} {port : Option Nat}
    {d : Directory} (hq : st.peer p = some q) (hq' : st'.peer p = some q')
    (hport : port = if q'.announced then some q'.listeningPort else none) (hlt : q'.listeningPort < 2 ^ 16)
    (hd : st'.directory = d) : Keeps ⟨Function.update b.ports p port, d⟩ st' where
  registry := henr.registry
  directory := hd
  ports := by
    intro e qe hqe
    dsimp only
    by_cases he : e = p
    · subst he
      obtain rfl := Option.some.inj (hq'.symm.trans hqe)
      rw [Function.update_self, hport]
    · rw [henr.others he] at hqe
      rw [Function.update_of_ne he]
      exact hk.ports hqe
  port_lt := by
    intro e qe hqe
    by_cases he : e = p
    · subst he
      obtain rfl := Option.some.inj (hq'.symm.trans hqe)
      exact hlt
    · rw [henr.others he] at hqe
      exact hk.port_lt hqe
  born := by
    intro e hne
    dsimp only at hne
    rw [henr.fresh]
    by_cases he : e = p
    · subst he
      exact Heap.lt_fresh_of_read hq
    · rw [Function.update_of_ne he] at hne
      exact hk.born hne

/-- The book has no more of the peer than before. -/
theorem Keeps.same {l : List Addr} (hk : Keeps b st) (henr : Enrolled p l st st') {q q' : Peer} {d : Directory}
    (hq : st.peer p = some q) (hq' : st'.peer p = some q') (hann : q'.announced = q.announced)
    (hport : q.announced = true → q'.listeningPort = q.listeningPort) (hlt : q'.listeningPort < 2 ^ 16)
    (hd : st'.directory = d) : Keeps { b with directory := d } st' := by
  have hkept : b.ports p = if q'.announced then some q'.listeningPort else none := by
    rw [hk.ports hq, hann]
    split
    · next hyes => rw [hport hyes]
    · rfl
  have hupd := hk.update henr hq hq' hkept hlt hd
  rwa [Function.update_eq_self] at hupd

theorem Keeps.isSome_ports (hk : Keeps b st) (hq : st.peer p = some q) : (b.ports p).isSome = q.announced := by
  rw [hk.ports hq]
  cases q.announced <;> rfl

theorem Book.step_refused (hd : declaredOf line = some (announce, cls)) (hrefused : (b.ports p).isSome = announce) :
    b.step (.request p line) = b := by
  rw [Book.step, hd]
  exact if_pos hrefused

open Classical in
theorem Book.step_read (hd : declaredOf line = some (announce, cls)) (hread : (b.ports p).isSome = !announce) :
    b.step (.request p line) =
      { ports := if announce ∧ GoesThrough announce cls then Function.update b.ports p (listenedPort cls) else b.ports
        directory := (readBefore announce cls).foldl (Directory.read announce p) b.directory } := by
  rw [Book.step, hd]
  refine if_neg fun hrefused => ?_
  rw [hread] at hrefused
  cases announce <;> cases hrefused

/-- A declaration that is answered `ok`. -/
theorem keeps_ok (hk : Keeps b st) (h : handleLine st p line = some (st', some okReply))
    (hd : declaredOf line = some (announce, cls)) : Keeps (b.step (.request p line)) st' := by
  obtain ⟨q, st₁, hq, hann, hfold, hall, rfl⟩ := handleLine_ok h hd
  have hfine := fine_of_foldlM hfold
  obtain ⟨-, hdir⟩ := directory_foldlM hk.registry hfold
  rw [hk.directory] at hdir
  rw [Book.step_read hd ((hk.isSome_ports hq).trans hann), readBefore_of_fine hfine]
  cases announce with
  | true =>
      obtain ⟨l, q₁, hr⟩ := announceRead_of_foldlM hk.registry hq hfold
      obtain ⟨q₁', hq₁', hport⟩ := port_of_foldlM hk.registry hq hfold
      obtain rfl := Option.some.inj (hr.peer.symm.trans hq₁')
      have hlisten : (listenedPort cls).isSome :=
        listenedPort_isSome hfine ((exists_listen_of_seen (hall.1 rfl)).resolve_left Bool.false_ne_true)
      obtain ⟨port, hlisten⟩ := Option.isSome_iff_exists.1 hlisten
      rw [if_pos ⟨rfl, hfine, hall⟩]
      have henr := enrolled_modifyPeers (u := fun q => { q with seqErrorCount := 0 })
        (enrolled_modifyPeers (u := fun q => { q with announced := true }) hr.toEnrolled)
      have hlt := port_lt_of_foldlM hk.registry hq (hk.port_lt hq) hr.peer hfold
      refine hk.update henr hq (peer_modifyPeer_self (peer_modifyPeer_self hr.peer)) ?_ hlt hdir
      rw [hlisten] at hport
      rw [hlisten, if_pos rfl]
      exact congrArg some hport.symm
  | false =>
      obtain ⟨l, q₁, henr, hq₁, hsame, -, hport⟩ := read_of_foldlM hk.registry hq hfold
      rw [if_neg fun hcon => Bool.false_ne_true hcon.1]
      have hlt := port_lt_of_foldlM hk.registry hq (hk.port_lt hq) hq₁ hfold
      exact hk.same (enrolled_modifyPeers henr) hq (peer_modifyPeer_self hq₁) hsame (fun _ => hport rfl) hlt hdir

/-- A declaration that is answered with an error. -/
theorem keeps_error {what : CString} (hk : Keeps b st) (h : handleLine st p line = some (st', some (errorNotice what)))
    (hd : declaredOf line = some (announce, cls)) : Keeps (b.step (.request p line)) st' := by
  obtain ⟨q, hq, ⟨hann, rfl⟩ | ⟨hann, hgoes, st₁, st₂, hfold, hst₂, rfl⟩⟩ := failing_read h hd
  · rw [Book.step_refused hd ((hk.isSome_ports hq).trans hann)]
    have hlt := hk.port_lt hq
    exact hk.same (enrolled_modifyPeer hk.registry p _) hq (peer_modifyPeer_self hq) rfl (fun _ => rfl) hlt
      hk.directory
  · obtain ⟨-, hdir⟩ := directory_foldlM hk.registry hfold
    rw [hk.directory] at hdir
    rw [Book.step_read hd ((hk.isSome_ports hq).trans hann), if_neg fun hcon => hgoes hcon.2]
    obtain ⟨l, q₁, henr, hq₁, hsame, -, hport⟩ := read_of_foldlM hk.registry hq hfold
    have hport' : q.announced = true → q₁.listeningPort = q.listeningPort := by
      intro hyes
      rw [hann] at hyes
      exact hport (by simpa using hyes)
    have hlt := port_lt_of_foldlM hk.registry hq (hk.port_lt hq) hq₁ hfold
    -- The clause that throws may have cleared the seeds of the peer.
    rcases hst₂ with rfl | ⟨-, rfl⟩
    · exact hk.same (enrolled_modifyPeers henr) hq (peer_modifyPeer_self hq₁) hsame hport' hlt hdir
    · exact hk.same (enrolled_modifyPeers (enrolled_modifyPeers henr)) hq
        (peer_modifyPeer_self (peer_modifyPeer_self hq₁)) hsame hport' hlt hdir

theorem keeps_step {ev : Event} (hk : Keeps b st) (hstep : Step st ev st') : Keeps (b.step ev) st' := by
  cases ev with
  | connect remoteIP =>
      obtain rfl := Option.some.inj hstep
      refine ⟨hk.registry, hk.directory, fun {e q} hq => ?_, fun {e q} hq => ?_, fun {e} hne => ?_⟩
      · rw [Tracker.peer, Heap.read_alloc] at hq
        split at hq
        · next he =>
            obtain rfl := Option.some.inj hq
            subst he
            by_contra hne
            exact absurd (hk.born hne) (Nat.lt_irrefl _)
        · exact hk.ports hq
      · rw [Tracker.peer, Heap.read_alloc] at hq
        split at hq
        · obtain rfl := Option.some.inj hq
          exact Nat.two_pow_pos 16
        · exact hk.port_lt hq
      · rw [Heap.fresh_alloc]
        exact Nat.lt_succ_of_lt (hk.born hne)
  | disconnect p =>
      obtain ⟨q₀, -, hpure⟩ := Option.bind_eq_some_iff.1 hstep
      obtain rfl := Option.some.inj hpure
      refine ⟨hk.registry, hk.directory, fun {e q} hq => ?_, fun {e q} hq => ?_, fun {e} hne => ?_⟩
      · rw [Tracker.peer, Heap.read_free] at hq
        split at hq
        · cases hq
        · exact hk.ports hq
      · rw [Tracker.peer, Heap.read_free] at hq
        split at hq
        · cases hq
        · exact hk.port_lt hq
      · rw [Heap.fresh_free]
        exact hk.born hne
  | request p line =>
      obtain ⟨q, reply, hq, hhandle⟩ := step_request hstep
      cases hd : declaredOf line with
      | none =>
          have hb : b.step (.request p line) = b := by
            rw [Book.step, hd]
          rw [hb]
          rcases handleLine_other hhandle hd with rfl | ⟨n, rfl⟩
          · exact hk
          · have hlt := hk.port_lt hq
            exact hk.same (enrolled_modifyPeer hk.registry p _) hq (peer_modifyPeer_self hq) rfl (fun _ => rfl) hlt
              hk.directory
      | some d =>
          obtain ⟨announce, cls⟩ := d
          obtain ⟨ss, -, ⟨st₁, -, -, rfl⟩ | ⟨st₁, what, -, -, rfl⟩⟩ := handleLine_declared hhandle hd
          · exact keeps_ok hk hhandle hd
          · exact keeps_error hk hhandle hd

theorem keeps_bookOf (hrun : TrackerRun h st) : Keeps (bookOf h) st := by
  refine Run.invariant_history (I := fun h st => Keeps (bookOf h) st) keeps_init ?_ hrun
  rintro h st ev st' - hk hstep
  exact keeps_step hk hstep

/-- The listings of the tracker are those of the book, and the ports of its peers too. -/
theorem directory_of_run (hrun : TrackerRun h st) : st.directory = (bookOf h).directory ∧
    ∀ p q, st.peer p = some q → (bookOf h).ports p = if q.announced then some q.listeningPort else none :=
  have hkeeps := keeps_bookOf hrun
  ⟨hkeeps.directory, fun _ _ hq => hkeeps.ports hq⟩

/-- Two announces of one hash with different sizes: the second peer has a file object that nobody finds, until it
updates. -/
def twoSizes : List Event :=
  [.connect ⟨127, 0, 0, 1⟩, .connect ⟨127, 0, 0, 1⟩,
    .request 0 "announce listen 5000 seed [film 10 5 k] leech []".toList,
    .request 1 "announce listen 6000 seed [film 10 4 k] leech []".toList]

theorem directory_of_run_twoSizes : ∃ h st, TrackerRun h st ∧ st.fileSet.length = 2 ∧
    (bookOf h).directory "k".toList = some ⟨10, 5, {0}⟩ ∧ (bookOf h).ports 1 = some 6000 := by
  obtain ⟨h, st, hrun, hlen, hfile, q, hq, hann, hport⟩ := exists_run_of_replay twoSizes
    (P := fun _ st => st.fileSet.length = 2 ∧ (st.fileMap.get "k".toList).bind st.file =
      some ⟨"film".toList, 10, 5, "k".toList, [0]⟩ ∧ ∃ q ∈ st.peer 1, q.announced = true ∧ q.listeningPort = 6000)
    (by decide)
  obtain ⟨hdir, hports⟩ := directory_of_run hrun
  refine ⟨h, st, hrun, hlen, ?_, ?_⟩
  · rw [← hdir, Tracker.directory, hfile]
    simp
  · rw [hports 1 q hq, hann, if_pos rfl, hport]

/-! ## Listings only grow -/

structure Listing.Le (l l' : Listing) : Prop where
  fileSize : l'.fileSize = l.fileSize
  pieceSize : l'.pieceSize = l.pieceSize
  peers : l.peers ⊆ l'.peers

theorem Listing.Le.refl (l : Listing) : l.Le l := ⟨rfl, rfl, subset_rfl⟩

theorem Listing.Le.trans {l l' l'' : Listing} (h : l.Le l') (h' : l'.Le l'') : l.Le l'' :=
  ⟨h'.fileSize.trans h.fileSize, h'.pieceSize.trans h.pieceSize, h.peers.trans h'.peers⟩

theorem Listing.le_add (p : Addr) (l : Listing) : l.Le (l.add p) := ⟨rfl, rfl, Set.subset_insert p l.peers⟩

namespace Directory

def Le (d d' : Directory) : Prop := ∀ ⦃k l⦄, d k = some l → ∃ l', d' k = some l' ∧ l.Le l'

variable {d d' : Directory} {es : List Entry} {e : Entry}

theorem Le.refl (d : Directory) : d.Le d := fun _ l hl => ⟨l, hl, .refl l⟩

theorem Le.trans {d'' : Directory} (h : d.Le d') (h' : d'.Le d'') : d.Le d'' := by
  intro k l hl
  obtain ⟨l', hl', hle⟩ := h hl
  obtain ⟨l'', hl'', hle'⟩ := h' hl'
  exact ⟨l'', hl'', hle.trans hle'⟩

/-- What is put in a place is not less than what was there. -/
theorem le_update {o : Option Listing} (h : ∀ l, d k = some l → ∃ l', o = some l' ∧ l.Le l') :
    d.Le (Function.update d k o) := by
  intro k' l hl
  by_cases hk : k' = k
  · subst hk
    rw [Function.update_self]
    exact h l hl
  · rw [Function.update_of_ne hk]
    exact ⟨l, hl, .refl l⟩

theorem le_seed (p : Addr) (d : Directory) (e : Entry) : d.Le (d.seed p e) := by
  refine le_update fun l hl => ⟨_, by rw [hl], ?_⟩
  split
  · exact l.le_add p
  · exact .refl l

theorem le_leech (p : Addr) (d : Directory) (hash : CString) : d.Le (d.leech p hash) :=
  le_update fun l hl => ⟨l.add p, by rw [hl, Option.map_some], l.le_add p⟩

theorem le_foldl {α : Type} {g : Directory → α → Directory} (hg : ∀ (d : Directory) (a : α), d.Le (g d a))
    (l : List α) (d : Directory) : d.Le (l.foldl g d) := by
  induction l generalizing d with
  | nil => exact .refl d
  | cons a l ih => exact (hg d a).trans (ih (g d a))

theorem le_read (announce : Bool) (p : Addr) (d : Directory) (c : Clause) : d.Le (d.read announce p c) := by
  cases c with
  | listen argument => exact .refl d
  | unexpected keyword => exact .refl d
  | leech text => exact le_foldl (le_leech p) _ d
  | seed text =>
      dsimp only [read]
      split
      · exact le_foldl (le_seed p) _ d
      · exact le_foldl (le_leech p) _ d

/-- An entry is listed.  The peer is under it if the listing has its sizes. -/
theorem listed_of_mem (he : e ∈ es) (p : Addr) (d : Directory) : ∃ l, es.foldl (seed p) d e.hash = some l ∧
    (l.fileSize = e.fileSize → l.pieceSize = e.pieceSize → p ∈ l.peers) := by
  obtain ⟨before, after, rfl⟩ := List.append_of_mem he
  rw [List.foldl_append, List.foldl_cons]
  generalize before.foldl (seed p) d = d₁
  obtain ⟨l, hl, hp⟩ : ∃ l, d₁.seed p e e.hash = some l ∧
      (l.fileSize = e.fileSize → l.pieceSize = e.pieceSize → p ∈ l.peers) := by
    cases h : d₁ e.hash with
    | none =>
        rw [seed_of_none h, Function.update_self]
        exact ⟨_, rfl, fun _ _ => rfl⟩
    | some l =>
        rw [seed_of_some h]
        split
        · rw [leech, Function.update_self, h]
          exact ⟨_, rfl, fun _ _ => Set.mem_insert p l.peers⟩
        · next hsizes => exact ⟨l, h, fun hfile hpiece => absurd ⟨hfile, hpiece⟩ hsizes⟩
  -- What is read later leaves the sizes as they are.
  obtain ⟨l', hl', hle⟩ := le_foldl (le_seed p) after _ hl
  refine ⟨l', hl', fun hfile hpiece => hle.peers (hp ?_ ?_)⟩
  · exact hle.fileSize.symm.trans hfile
  · exact hle.pieceSize.symm.trans hpiece

end Directory

/-- An announce stays in the book. -/
structure Book.Le (b b' : Book) : Prop where
  ports : ∀ {p port}, b.ports p = some port → b'.ports p = some port
  directory : b.directory.Le b'.directory

theorem Book.le_step (b : Book) (ev : Event) : b.Le (b.step ev) := by
  have hrefl : b.Le b := ⟨id, .refl _⟩
  cases ev with
  | connect remoteIP => exact hrefl
  | disconnect e => exact hrefl
  | request e line =>
      cases hd : declaredOf line with
      | none =>
          rw [Book.step, hd]
          exact hrefl
      | some c =>
          obtain ⟨announce, cls⟩ := c
          by_cases hrefused : (b.ports e).isSome = announce
          · rw [Book.step_refused hd hrefused]
            exact hrefl
          · rw [Book.step_read hd (Bool.eq_not_iff.2 hrefused)]
            refine ⟨fun {p port} hport => ?_, Directory.le_foldl (Directory.le_read announce e) _ _⟩
            dsimp only
            split
            · next hgoes =>
                have hne : p ≠ e := by
                  rintro rfl
                  rw [hport] at hrefused
                  exact hrefused hgoes.1.symm
                rw [Function.update_of_ne hne, hport]
            · exact hport

theorem bookOf_le (newer older : TrackerHistory) : (bookOf older).Le (bookOf (newer ++ older)) := by
  induction newer with
  | nil => exact ⟨id, .refl _⟩
  | cons x newer ih =>
      have hstep := (bookOf (newer ++ older)).le_step x.2
      exact ⟨fun hport => hstep.ports (ih.ports hport), ih.directory.trans hstep.directory⟩

end CppTracker
end Raiezau
