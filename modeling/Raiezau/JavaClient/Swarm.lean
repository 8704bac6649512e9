import Raiezau.JavaClient.Reassembly
import Raiezau.JavaClient.Session
import Raiezau.Machine.Run

/-!
# Swarm — any number of clients that take pieces from each other

Each client has its files and, for each peer and key, the piece map it was last told.  A step is one call of one client
to another, a whole exchange over their connection; the calls of all clients come in any order, and pieces are taken
from clients that are themselves not complete.  A client asks for pieces that are in the map it was told.  The bytes of
every piece that a client says it has are those of the file behind the key, however they came there.

All clients have a key with one length and one piece size.  A read returns as many characters as it is asked for, and
the charset keeps every byte (`ShortRead` is about reads that return less).
-/

namespace Raiezau
namespace JavaClient

open CUtil Machine Assoc Bytes Peer

/-! ## The file behind a key -/

/-- A content and the way it is cut into pieces. -/
structure Origin where
  content : List UInt8
  pieceSize : Nat
  pieceCount : Nat
  nonempty : content ≠ []
  pieces : Pieces content.length pieceSize pieceCount
  counted : pieceCountOf content.length pieceSize = .ok (pieceCount : Int)
  fits : pieceCount + 7 < 2 ^ 31

namespace Origin

/-- What `readPiece` should return. -/
def piece (o : Origin) (i : Nat) : List UInt8 := readAt 0 o.content (o.pieceSize * i) o.pieceSize

end Origin

/-- The bit of a piece is set. -/
def BufferMap.Marks (bm : BufferMap) (i : Int) : Prop := bm.isCompleted i = .ok true

/-- A file whose marked pieces are those of the origin. -/
structure File.Holds (o : Origin) (f : File) : Prop where
  built : f.Built
  assembled : Assembled o.content o.pieceSize o.pieceCount (fun i => i < o.pieceCount ∧ f.bufferMap.Marks i) f

variable {o : Origin} {f f' l : File} {i j : Nat} {S T : Nat → Prop}

theorem Assembled.mono {C : List UInt8} {p n : Nat} (h : Assembled C p n S l) (hsub : ∀ i, T i → S i) :
    Assembled C p n T l :=
  ⟨h.length_eq, h.pieceSize_eq, h.count, h.map_size, fun hi => h.bits (hsub _ hi), fun hi => h.bytes (hsub _ hi),
    fun hi => h.cut (hsub _ hi)⟩

/-! ### As the constructors make them -/

theorem holds_seed {md5Hash : List UInt8 → CString} {name : CString}
    (h : File.seed md5Hash name o.pieceSize o.content = .ok f) : f.Holds o := by
  obtain ⟨s, hseed, hs⟩ := seed_spec md5Hash name o.counted o.fits
  obtain rfl := Except.ok.inj (h.symm.trans hseed)
  obtain ⟨bm, hbm, rfl⟩ := File.seed_eq_ok h
  refine ⟨⟨bm, hbm, rfl⟩, rfl, rfl, o.counted, ?_, fun hi => hi.2, fun _ _ _ _ => rfl, fun _ _ => rfl⟩
  obtain ⟨n, bitSet, hn, hnew, hsize⟩ := ofFile_eq_ok hbm
  obtain rfl := Except.ok.inj (o.counted.symm.trans hn)
  rw [BitSet.new_of_fits o.fits] at hnew
  obtain rfl := Except.ok.inj hnew
  have hlen : bm.size = (o.pieceCount + 7) / 8 := hsize.trans List.length_replicate
  exact hlen.ge

/-- An incomplete file has no piece at the start, whatever is in it. -/
theorem holds_incomplete {name key : CString} {D : List UInt8}
    (h : File.incomplete name o.content.length o.pieceSize key D = .ok f) : f.Holds o := by
  obtain ⟨l, hinc, hl⟩ := incomplete_spec name key D o.counted o.fits
  obtain rfl := Except.ok.inj (h.symm.trans hinc)
  obtain ⟨bm, hbm, rfl⟩ := File.incomplete_eq_ok h
  refine ⟨⟨bm, hbm, rfl⟩, hl.mono ?_⟩
  rintro i ⟨hi, hmarks⟩
  have hzero := ofFile_of_fits o.counted o.fits false
  obtain rfl := Except.ok.inj (hbm.symm.trans hzero)
  have hbyte : (List.replicate ((o.pieceCount + 7) / 8) (0 : UInt8))[i / 8]? = some 0 := by
    rw [List.getElem?_replicate, if_pos (by omega)]
  cases hmarks.symm.trans (BitSet.test_zero (b := ⟨_⟩) hbyte)

/-! ### Reading and writing -/

theorem File.Holds.readPiece_eq (h : f.Holds o) (hi : i < o.pieceCount) (hmarks : f.bufferMap.Marks i) :
    f.readPiece i = .ok (o.piece i) := by
  have hassembled := h.assembled
  have hbit : f.bufferMap.isCompleted i = .ok true := hmarks
  have hpos := o.pieces.toInt32_pos hi
  simp only [File.readPiece, hassembled.pieceSize_eq, hbit, hpos]
  rw [if_neg (by omega), if_neg (by omega)]
  refine congrArg Except.ok (readAt_eq_readAt_iff.2 fun k hk => ?_)
  simp only [Int.toNat_natCast] at hk ⊢
  -- Past the end of the origin there is nothing on either side.
  rcases Nat.lt_or_ge (o.pieceSize * i + k) o.content.length with hin | hout
  · rw [hassembled.bytes ⟨hi, hmarks⟩ (Nat.le_add_right _ _) (by omega) hin]
  · have hlast : i + 1 = o.pieceCount := by
      by_contra hmid
      have := o.pieces.end_lt (i := i) (by omega)
      omega
    rw [List.getElem?_eq_none hout, List.getElem?_eq_none (by rw [hassembled.cut ⟨hi, hmarks⟩ hlast]; exact hout)]

theorem addCompletedPart_eq_ok {bm bm' : BufferMap} (h : bm.addCompletedPart i = .ok bm') :
    ∃ b, bm.bitSet.set i = .ok b ∧ bm' = ⟨b⟩ := by
  unfold BufferMap.addCompletedPart at h
  cases hset : bm.bitSet.set i with
  | error e =>
      rw [hset] at h
      cases h
  | ok b =>
      rw [hset] at h
      exact ⟨b, rfl, (Except.ok.inj h).symm⟩

theorem marks_of_set {bm bm' : BufferMap} (h : bm.addCompletedPart i = .ok bm') :
    bm'.Marks j ↔ bm.Marks j ∨ i = j := by
  obtain ⟨b, hset, rfl⟩ := addCompletedPart_eq_ok h
  have htest := BitSet.test_set (j := j) hset
  unfold BufferMap.Marks BufferMap.isCompleted
  cases hold : bm.bitSet.test j with
  | error e =>
      rw [htest, hold]
      refine ⟨fun h => (by cases h), ?_⟩
      rintro (h | rfl)
      · cases h
      · rw [BitSet.test_set_self hset, hold] at htest
        cases htest
  | ok x =>
      rw [htest, hold]
      cases x <;> simp [Except.map]

/-- A piece of the origin is written, and the others stay as they are. -/
theorem File.Holds.writePiece (h : f.Holds o) (hi : i < o.pieceCount) : ∃ f', f.writePiece i (o.piece i) = .ok f' ∧
    f'.Holds o ∧ SameShape f f' ∧ ∀ j : Nat, f'.bufferMap.Marks j ↔ f.bufferMap.Marks j ∨ i = j := by
  obtain ⟨bm, hbm, heq⟩ := writePiece_eq o.pieces h.assembled hi
  obtain ⟨f', hwrite, hassembled⟩ := writePiece_spec o.pieces h.assembled hi
  obtain rfl := Except.ok.inj (heq.symm.trans hwrite)
  have hmarks : ∀ j : Nat, bm.Marks j ↔ f.bufferMap.Marks j ∨ i = j := fun j => marks_of_set hbm
  have hsize : bm.size = f.bufferMap.size := by
    obtain ⟨b, hset, rfl⟩ := addCompletedPart_eq_ok hbm
    exact BitSet.size_set hset
  refine ⟨_, heq, ⟨SameShape.built (f := f) ⟨rfl, rfl, rfl, rfl, hsize⟩ h.built, hassembled.mono ?_⟩,
    ⟨rfl, rfl, rfl, rfl, hsize⟩, hmarks⟩
  rintro j ⟨hj, hset⟩
  rcases (hmarks j).1 hset with hold | rfl
  · exact .inr ⟨hj, hold⟩
  · exact .inl rfl

theorem File.Holds.writePieces (h : f.Holds o) {pieces : List (Int × List UInt8)}
    (hpieces : ∀ x ∈ pieces, ∃ i : Nat, x = ((i : Int), o.piece i) ∧ i < o.pieceCount) :
    ∃ f', f.writePieces pieces = .ok f' ∧ f'.Holds o ∧ SameShape f f' ∧
      ∀ j : Nat, f'.bufferMap.Marks j ↔ f.bufferMap.Marks j ∨ (j : Int) ∈ pieces.map Prod.fst := by
  induction pieces generalizing f with
  | nil => exact ⟨f, rfl, h, ⟨rfl, rfl, rfl, rfl, rfl⟩, fun j => by simp⟩
  | cons x pieces ih =>
      obtain ⟨i, rfl, hi⟩ := hpieces x (by simp)
      obtain ⟨f₁, hwrite, h₁, hshape, hmarks⟩ := h.writePiece hi
      obtain ⟨f', hrest, h', hshape', hmarks'⟩ := ih h₁ fun y hy => hpieces y (by simp [hy])
      refine ⟨f', ?_, h', hshape.trans hshape', fun j => ?_⟩
      · rw [File.writePieces, List.foldlM_cons, hwrite]
        exact hrest
      · rw [hmarks', hmarks, or_assoc, List.map_cons, List.mem_cons, Int.natCast_inj, eq_comm]

theorem File.Holds.hasPiece (h : f.Holds o) (hi : i < o.pieceCount) (hmarks : f.bufferMap.Marks i) :
    HasPiece f i := by
  have hpos := o.pieces.size_pos
  refine ⟨?_, Int.natCast_nonneg i, ⟨o.pieceCount, h.assembled.count, Int.ofNat_lt.2 hi⟩, hmarks⟩
  rw [h.assembled.pieceSize_eq]
  omega

/-- Two files of one origin under one key can be exchanged. -/
theorem File.Holds.shares {client server : FileManager} {k : CString} (h : f.Holds o) (h' : f'.Holds o)
    (hclient : client.lookup k = some f) (hserver : server.lookup k = some f') (hkey : f.key = k)
    (hkey' : f'.key = k) : Shares client server k f f' :=
  ⟨hclient, hserver, hkey, hkey', h.assembled.length_eq.trans h'.assembled.length_eq.symm,
    h.assembled.pieceSize_eq.trans h'.assembled.pieceSize_eq.symm, h.built, h'.built⟩

/-! ## Clients and calls -/

/-- The clients are named by `ι`; `told a b k` is the map of the `FilePeer` that `a` keeps of `b` for the file `k`. -/
structure Swarm (ι : Type) where
  files : ι → FileManager
  told : ι → ι → CString → BufferMap

namespace Swarm

structure Event (ι : Type) where
  caller : ι
  callee : ι
  call : Call
  deriving DecidableEq

variable {ι : Type} [DecidableEq ι]

/-- A piece of the file that is in the map of the peer. -/
def isShown (f : File) (told : BufferMap) (i : Int) : Bool :=
  match f.getPieceCount, told.isCompleted i with
  | .ok n, .ok bit => 0 ≤ i && i < n && bit
  | _, _ => false

/-- Both clients have the file, and the pieces asked for have been shown. -/
def allows (s : Swarm ι) (e : Event ι) : Bool :=
  e.caller ≠ e.callee && e.call.key.length = 32 && e.call.key.all isHexDigit &&
    ((s.files e.callee).lookup e.call.key).isSome &&
    ((s.files e.caller).lookup e.call.key).any fun f =>
      e.call.index.all (isShown f (s.told e.caller e.callee e.call.key))

/-- The connection between two clients. -/
def session (s : Swarm ι) (e : Event ι) : Session :=
  { client := s.files e.caller
    bm := s.told e.caller e.callee e.call.key
    server := s.files e.callee
    toServer := []
    toClient := [] }

def after (s : Swarm ι) (e : Event ι) (t : Session) : Swarm ι :=
  { files := fun a => if a = e.caller then t.client else if a = e.callee then t.server else s.files a
    told := fun a b k => if a = e.caller ∧ b = e.callee ∧ k = e.call.key then t.bm else s.told a b k }

def step (s : Swarm ι) (e : Event ι) : Option (Swarm ι) :=
  if s.allows e then (exchange e.call (s.session e)).map (s.after e) else none

def Step (s : Swarm ι) (e : Event ι) (s' : Swarm ι) : Prop := s.step e = some s'

/-! ## What the bytes are -/

/-- Every file holds pieces of its origin only, and every map that a client was told is borne out. -/
structure Sound (origin : CString → Origin) (s : Swarm ι) : Prop where
  key_eq : ∀ {a k f}, (s.files a).lookup k = some f → f.key = k
  holds : ∀ {a k f}, (s.files a).lookup k = some f → f.Holds (origin k)
  told : ∀ {a b k f} {i : Nat}, (s.files b).lookup k = some f → i < (origin k).pieceCount →
    (s.told a b k).Marks i → f.bufferMap.Marks i

variable {origin : CString → Origin} {s s' : Swarm ι} {e : Event ι}

theorem isShown_iff {told : BufferMap} {n : Nat} {x : Int} (hcount : f.getPieceCount = .ok (n : Int)) :
    isShown f told x = true ↔ ∃ i : Nat, x = i ∧ i < n ∧ told.Marks i := by
  unfold isShown
  rw [hcount]
  cases hbit : told.isCompleted x with
  | error e =>
      refine ⟨fun h => (by cases h), ?_⟩
      rintro ⟨i, rfl, -, hmarks⟩
      cases hbit.symm.trans hmarks
  | ok bit =>
      simp only [Bool.and_eq_true, decide_eq_true_eq]
      constructor
      · rintro ⟨⟨hnonneg, hlt⟩, rfl⟩
        obtain ⟨i, rfl⟩ := Int.eq_ofNat_of_zero_le hnonneg
        exact ⟨i, rfl, by omega, hbit⟩
      · rintro ⟨i, rfl, hlt, hmarks⟩
        exact ⟨⟨by omega, by omega⟩, Except.ok.inj (hbit.symm.trans hmarks)⟩

/-- What an allowed call finds. -/
structure Ready (origin : CString → Origin) (s : Swarm ι) (e : Event ι) (f f' : File) : Prop where
  ne : e.caller ≠ e.callee
  isKey : IsKey e.call.key
  shares : Shares (s.files e.caller) (s.files e.callee) e.call.key f f'
  index : ∀ x ∈ e.call.index, ∃ i : Nat, x = i ∧ i < (origin e.call.key).pieceCount ∧ f'.bufferMap.Marks i

theorem Sound.ready (hs : s.Sound origin) (h : s.allows e = true) : ∃ f f', Ready origin s e f f' := by
  simp only [allows, Bool.and_eq_true, decide_eq_true_eq, Option.any_eq_true, List.all_eq_true] at h
  obtain ⟨⟨⟨⟨hne, hlen⟩, hhex⟩, hserver⟩, f, hf, hindex⟩ := h
  obtain ⟨f', hf'⟩ := Option.isSome_iff_exists.1 hserver
  refine ⟨f, f', hne, ⟨hlen, hhex⟩, (hs.holds hf).shares (hs.holds hf') hf hf' (hs.key_eq hf) (hs.key_eq hf'), ?_⟩
  intro x hx
  obtain ⟨i, rfl, hi, hmarks⟩ := (isShown_iff (hs.holds hf).assembled.count).1 (hindex x hx)
  exact ⟨i, rfl, hi, hs.told hf' hi hmarks⟩

/-- What a call leaves: the caller's file has the pieces asked for, and the map is the old one or the callee's. -/
structure Outcome (origin : CString → Origin) (s : Swarm ι) (e : Event ι) (f f' : File) (t : Session) (f₁ : File) :
    Prop where
  delivered : Delivered (s.session e) e.call t
  replaces : Replaces (s.files e.caller) e.call.key f₁ t.client
  holds : f₁.Holds (origin e.call.key)
  key_eq : f₁.key = e.call.key
  marks : ∀ j : Nat, f₁.bufferMap.Marks j ↔ f.bufferMap.Marks j ∨ (j : Int) ∈ e.call.index
  told : t.bm = s.told e.caller e.callee e.call.key ∨ t.bm = f'.bufferMap

omit [DecidableEq ι] in
theorem Sound.outcome (hs : s.Sound origin) {f f' : File} (h : Ready origin s e f f') :
    ∃ t f₁, Outcome origin s e f f' t f₁ := by
  obtain ⟨caller, callee, call⟩ := e
  have hf := h.shares.on_client
  have hf' := h.shares.on_server
  have hsame : Replaces (s.files caller) call.key f (s.files caller) := ⟨hf, fun _ _ => rfl⟩
  cases call with
  | interested k =>
      exact ⟨_, f, interested_delivered ⟨rfl, rfl⟩ h.isKey h.shares, hsame, hs.holds hf, hs.key_eq hf,
        fun j => by simp [Call.index], .inr rfl⟩
  | «have» k =>
      exact ⟨_, f, have_delivered ⟨rfl, rfl⟩ h.isKey h.shares, hsame, hs.holds hf, hs.key_eq hf,
        fun j => by simp [Call.index], .inr rfl⟩
  | getpieces k index =>
      have hhas : ∀ x ∈ index, HasPiece f' x := by
        intro x hx
        obtain ⟨i, rfl, hi, hmarks⟩ := h.index x hx
        exact (hs.holds hf').hasPiece hi hmarks
      obtain ⟨f₀, fm, -, -, hdelivered⟩ := getpieces_delivered
        (s := s.session ⟨caller, callee, .getpieces k index⟩) ⟨rfl, rfl⟩ h.isKey h.shares hhas
      obtain ⟨g, g', hshares, -, -, pieces, f₁, rfl, hread, hwrite, hreplaces⟩ := hdelivered.files
      obtain rfl := Option.some.inj (hf.symm.trans hshares.on_client)
      obtain rfl := Option.some.inj (hf'.symm.trans hshares.on_server)
      -- What the callee reads is what the origin has there.
      have hpieces : ∀ x ∈ pieces, ∃ i : Nat, x = ((i : Int), (origin k).piece i) ∧ i < (origin k).pieceCount := by
        rintro ⟨x, data⟩ hx
        obtain ⟨i, hxi, hi, hmarks⟩ := h.index x (List.mem_map_of_mem hx)
        obtain rfl : x = i := hxi
        have hdata := (hs.holds hf').readPiece_eq hi hmarks
        obtain rfl := Except.ok.inj (hdata.symm.trans (hread _ hx))
        exact ⟨i, rfl, hi⟩
      obtain ⟨f₂, hwrite₂, hholds, hshape, hmarks⟩ := (hs.holds hf).writePieces hpieces
      obtain rfl := Except.ok.inj (hwrite₂.symm.trans hwrite)
      exact ⟨_, f₂, hdelivered, hreplaces, hholds, hshape.key_eq.trans (hs.key_eq hf), hmarks, .inl rfl⟩

theorem step_of_outcome {f f' f₁ : File} {t : Session} (hallows : s.allows e = true)
    (h : Outcome origin s e f f' t f₁) : s.step e = some (s.after e t) := by
  rw [step, if_pos hallows, h.delivered.exchanged]
  rfl

/-- Files that a client has after a step: those of the caller may have more pieces. -/
theorem Outcome.lookup {f f' f₁ g : File} {t : Session} {a : ι} {k : CString}
    (h : Outcome origin s e f f' t f₁) (hg : ((s.after e t).files a).lookup k = some g) :
    (s.files a).lookup k = some g ∨ (a = e.caller ∧ k = e.call.key ∧ g = f₁) := by
  have hserver : t.server = s.files e.callee := h.delivered.server_eq
  simp only [after] at hg
  split at hg
  · next ha =>
      subst ha
      by_cases hk : k = e.call.key
      · subst hk
        exact .inr ⟨rfl, rfl, (Option.some.inj (h.replaces.1.symm.trans hg)).symm⟩
      · exact .inl ((h.replaces.2 k hk).symm.trans hg)
  · split at hg
    · next hb => exact .inl (hb ▸ hserver ▸ hg)
    · exact .inl hg

theorem Sound.after {f f' f₁ : File} {t : Session} (hs : s.Sound origin) (hready : Ready origin s e f f')
    (h : Outcome origin s e f f' t f₁) : (s.after e t).Sound origin := by
  refine ⟨fun {a k g} hg => ?_, fun {a k g} hg => ?_, fun {a b k g i} hg hi hmarks => ?_⟩
  · rcases h.lookup hg with hold | ⟨rfl, rfl, rfl⟩
    · exact hs.key_eq hold
    · exact h.key_eq
  · rcases h.lookup hg with hold | ⟨rfl, rfl, rfl⟩
    · exact hs.holds hold
    · exact h.holds
  · -- A client never loses a piece, so what was borne out still is.
    have hbefore : ∃ g₀, (s.files b).lookup k = some g₀ ∧ (g₀.bufferMap.Marks i → g.bufferMap.Marks i) := by
      rcases h.lookup hg with hold | ⟨rfl, rfl, rfl⟩
      · exact ⟨g, hold, id⟩
      · exact ⟨f, hready.shares.on_client, fun hm => (h.marks i).2 (.inl hm)⟩
    obtain ⟨g₀, hg₀, hkeep⟩ := hbefore
    simp only [Swarm.after] at hmarks
    split at hmarks
    · next hthis =>
        obtain ⟨rfl, rfl, rfl⟩ := hthis
        rcases h.told with htold | htold
        · rw [htold] at hmarks
          exact hkeep (hs.told hg₀ hi hmarks)
        · rw [htold] at hmarks
          obtain rfl := Option.some.inj (hg₀.symm.trans hready.shares.on_server)
          exact hkeep hmarks
    · exact hkeep (hs.told hg₀ hi hmarks)

theorem Sound.step (hs : s.Sound origin) (h : Step s e s') : s'.Sound origin := by
  unfold Step Swarm.step at h
  split at h
  · next hallows =>
      obtain ⟨f, f', hready⟩ := hs.ready hallows
      obtain ⟨t, f₁, hout⟩ := hs.outcome hready
      rw [hout.delivered.exchanged] at h
      obtain rfl := Option.some.inj h
      exact hs.after hready hout
  · cases h

/-! ## Whole runs -/

/-- The files are as the constructors make them, a complete one from its content and any other from nothing, and
no client has been told of a piece. -/
structure Fresh (md5Hash : List UInt8 → CString) (origin : CString → Origin) (s : Swarm ι) : Prop where
  key_eq : ∀ {a k f}, (s.files a).lookup k = some f → f.key = k
  made : ∀ {a k f}, (s.files a).lookup k = some f → ∃ name,
    File.seed md5Hash name (origin k).pieceSize (origin k).content = .ok f ∨
      ∃ D, File.incomplete name (origin k).content.length (origin k).pieceSize k D = .ok f
  told : ∀ {a b k} {i : Nat}, ¬ (s.told a b k).Marks i

variable {md5Hash : List UInt8 → CString} {s₀ : Swarm ι} {h : History (Swarm ι) (Event ι)}

omit [DecidableEq ι] in
theorem Fresh.sound (hs : s.Fresh md5Hash origin) : s.Sound origin := by
  refine ⟨hs.key_eq, fun {a k f} hf => ?_, fun _ _ hmarks => absurd hmarks hs.told⟩
  obtain ⟨name, hseed | ⟨D, hinc⟩⟩ := hs.made hf
  · exact holds_seed hseed
  · exact holds_incomplete hinc

theorem run_sound (hstart : s₀.Fresh md5Hash origin) (hrun : Run Step s₀ h s) : s.Sound origin :=
  hrun.invariant hstart.sound fun hs hstep => hs.step hstep

/-- Whoever took the pieces from whom: every piece a client has is the piece of the file behind the key, and a file
with all pieces is that file. -/
theorem pieces_genuine (hstart : s₀.Fresh md5Hash origin) (hrun : Run Step s₀ h s) {a : ι} {k : CString} {f : File}
    (hf : (s.files a).lookup k = some f) :
    (∀ i < (origin k).pieceCount, f.bufferMap.Marks i → f.readPiece i = .ok ((origin k).piece i)) ∧
      ((∀ i < (origin k).pieceCount, f.bufferMap.Marks i) → f.content = (origin k).content) := by
  have hholds := (run_sound hstart hrun).holds hf
  refine ⟨fun i hi hmarks => hholds.readPiece_eq hi hmarks, fun hall => ?_⟩
  exact hholds.assembled.content_eq (origin k).pieces (origin k).nonempty fun i hi => ⟨hi, hall i hi⟩

/-- A call that the caller may make is understood by both sides whatever the two have, both directions of the
connection are empty afterwards, and the caller has what it asked for besides what it had. -/
theorem allowed_call_served (hstart : s₀.Fresh md5Hash origin) (hrun : Run Step s₀ h s)
    (hallows : s.allows e = true) : ∃ t f f₁, s.step e = some (s.after e t) ∧ Delivered (s.session e) e.call t ∧
      (s.files e.caller).lookup e.call.key = some f ∧
      ((s.after e t).files e.caller).lookup e.call.key = some f₁ ∧
      ∀ i : Nat, f₁.bufferMap.Marks i ↔ f.bufferMap.Marks i ∨ (i : Int) ∈ e.call.index := by
  have hs := run_sound hstart hrun
  obtain ⟨f, f', hready⟩ := hs.ready hallows
  obtain ⟨t, f₁, hout⟩ := hs.outcome hready
  refine ⟨t, f, f₁, step_of_outcome hallows hout, hout.delivered, hready.shares.on_client, ?_, hout.marks⟩
  simp only [Swarm.after, if_true]
  exact hout.replaces.1

/-! ### Three clients -/

def fiveBytes : Origin :=
  { content := [32, 58, 93, 10, 255]
    pieceSize := 2
    pieceCount := 3
    nonempty := by decide
    pieces := pieces_of_count (by decide) (by decide) (by decide) (by decide)
    counted := by decide
    fits := by decide }

/-- Client 0 has the file, the two others have nothing of it. -/
def threeClients : Swarm (Fin 3) :=
  { files := fun a => [(sharedKey, sharedFile (a = 0))]
    told := fun _ _ _ => ⟨⟨[0]⟩⟩ }

theorem threeClients_fresh : threeClients.Fresh (fun _ => sharedKey) fun _ => fiveBytes := by
  have hlookup : ∀ {a : Fin 3} {k f}, (threeClients.files a).lookup k = some f →
      k = sharedKey ∧ f = sharedFile (a = 0) := by
    intro a k f hf
    rw [threeClients, Table.lookup_cons] at hf
    split at hf
    · next hk => exact ⟨hk.symm, (Option.some.inj hf).symm⟩
    · cases hf
  refine ⟨fun {a k f} hf => ?_, fun {a k f} hf => ⟨"f".toList, ?_⟩, fun {_ _ _ i} hmarks => ?_⟩
  · obtain ⟨rfl, rfl⟩ := hlookup hf
    rfl
  · obtain ⟨rfl, rfl⟩ := hlookup hf
    by_cases ha : a = 0
    · refine .inl ?_
      rw [ha]
      rfl
    · refine .inr ⟨[], ?_⟩
      rw [decide_eq_false ha]
      rfl
  · have hmarks : BitSet.test ⟨[0]⟩ i = .ok true := hmarks
    cases hbyte : i / 8 with
    | zero => cases hmarks.symm.trans (BitSet.test_zero (b := ⟨[0]⟩) (by rw [hbyte]; rfl))
    | succ n =>
        rw [BitSet.test_natCast, hbyte] at hmarks
        cases hmarks

/-- The third client takes two pieces from the second, which has them from the first. -/
def relayedCalls : List (Event (Fin 3)) :=
  [⟨1, 0, .interested sharedKey⟩, ⟨1, 0, .getpieces sharedKey [2, 0]⟩, ⟨2, 1, .interested sharedKey⟩,
    ⟨2, 1, .getpieces sharedKey [0, 2]⟩, ⟨2, 0, .have sharedKey⟩, ⟨2, 0, .getpieces sharedKey [1]⟩]

theorem pieces_genuine_relayed : ∃ h s f, Run Step threeClients h s ∧
    (s.files 2).lookup sharedKey = some f ∧ f.content = [32, 58, 93, 10, 255] := by
  obtain ⟨h, s, hrun, hf⟩ : ∃ h s, Run Step threeClients h s ∧ (s.files 2).lookup sharedKey =
      some { sharedFile false with bufferMap := ⟨⟨[7]⟩⟩, content := [32, 58, 93, 10, 255] } :=
    Run.exists_of_replay id relayedCalls
      (P := fun _ (s : Swarm (Fin 3)) => (s.files 2).lookup sharedKey =
        some { sharedFile false with bufferMap := ⟨⟨[7]⟩⟩, content := [32, 58, 93, 10, 255] })
      (by decide +kernel)
  refine ⟨h, s, _, hrun, hf, (pieces_genuine threeClients_fresh hrun hf).2 fun i hi => ?_⟩
  have hlt : i < 3 := hi
  obtain rfl | rfl | rfl : i = 0 ∨ i = 1 ∨ i = 2 := by omega
  all_goals rfl

/-- The third client asks the second for two pieces that the second has taken from the first. -/
theorem allowed_call_served_relayed : ∃ h s t f, Run Step threeClients h s ∧
    s.step ⟨2, 1, .getpieces sharedKey [0, 2]⟩ = some (s.after ⟨2, 1, .getpieces sharedKey [0, 2]⟩ t) ∧
    ((s.after ⟨2, 1, .getpieces sharedKey [0, 2]⟩ t).files 2).lookup sharedKey = some f ∧
    f.bufferMap.Marks 0 ∧ f.bufferMap.Marks 2 := by
  obtain ⟨h, s, hrun, hallows⟩ : ∃ h s, Run Step threeClients h s ∧
      s.allows ⟨2, 1, .getpieces sharedKey [0, 2]⟩ = true :=
    Run.exists_of_replay id (relayedCalls.take 3)
      (P := fun _ (s : Swarm (Fin 3)) => s.allows ⟨2, 1, .getpieces sharedKey [0, 2]⟩ = true) (by decide +kernel)
  obtain ⟨t, f₀, f, hstep, -, -, hf, hmarks⟩ := allowed_call_served threeClients_fresh hrun hallows
  exact ⟨h, s, t, f, hrun, hstep, hf, (hmarks 0).2 (.inr (by decide)), (hmarks 2).2 (.inr (by decide))⟩

end Swarm

end JavaClient
end Raiezau
