import Raiezau.JavaClient.GetPieces
import Raiezau.JavaClient.Strategy
import Raiezau.JavaClient.Tracker

/-!
# Completion — which pieces a file says it has

The bit of a piece is set for all pieces of a seeded file and for each piece that was written.  The map is padded to
whole bytes, and for a seeded file the padding is set with it; an index from -7 to -1 reads the sign of the first byte,
which is the bit of index 7.
-/

namespace Raiezau
namespace JavaClient

open CUtil Bytes

variable {md5Hash : List UInt8 → CString} {f g : File} {calls : List (Int × List UInt8)} {i n : Int} {data : List UInt8}

/-! ## Model -/

/-- A file as one of the constructors makes it. -/
inductive File.Loaded (md5Hash : List UInt8 → CString) : File → Prop
  | incomplete {name key : CString} {length pieceSize : Int} {content : List UInt8} {f : File} :
      File.incomplete name length pieceSize key content = .ok f → Loaded md5Hash f
  | seed {name : CString} {pieceSize : Int} {content : List UInt8} {f : File} :
      File.seed md5Hash name pieceSize content = .ok f → Loaded md5Hash f

/-- The files of the list that are declared as seed. -/
def seedEntries (files : List File) : CString := ((seededFiles files).flatMap File.tokens).flatMap fun w => w ++ [' ']

/-- The keys of the list that are declared as leech. -/
def leechEntries (files : List File) : CString := ((leechedFiles files).map File.key).flatMap fun w => w ++ [' ']

namespace File

/-- The index is one of the file's pieces. -/
def InRange (f : File) (i : Int) : Prop := ∃ n, f.getPieceCount = .ok n ∧ 0 ≤ i ∧ i < n

/-- One of the calls, made on what those before it left, wrote the piece and returned. -/
def WrittenBy (f : File) (calls : List (Int × List UInt8)) (i : Int) : Prop :=
  ∃ before data after, calls = before ++ (i, data) :: after ∧
    ∃ g, (f.writtenPieces before).writePiece i data = .ok g

/-- The piece exists, and was there when the file was loaded or was written since. -/
def Owns (f : File) (calls : List (Int × List UInt8)) (i : Int) : Prop :=
  f.InRange i ∧ (f.seeded = true ∨ f.WrittenBy calls i)

/-- A read after the calls gives data for a piece that is there, and throws for any other. -/
structure ServesOwned (f : File) (calls : List (Int × List UInt8)) (i : Int) : Prop where
  owned : ∀ {data}, (f.writtenPieces calls).readPiece i = .ok data → f.Owns calls i
  refused : ¬ f.Owns calls i → (f.writtenPieces calls).readPiece i = .error .noPart

/-- One of the calls is for this index, at a position that is not negative. -/
def Stores (f : File) (calls : List (Int × List UInt8)) (i : Int) : Prop := ∃ x ∈ calls, f.Writes x.1 ∧ x.1 = i

instance (f : File) (calls : List (Int × List UInt8)) (i : Int) : Decidable (f.Stores calls i) :=
  inferInstanceAs (Decidable (∃ x ∈ calls, f.Writes x.1 ∧ x.1 = i))

/-- When a read is answered as it should be.  Behind the last piece and below 0 that takes a file that was not loaded
as seeded, a place in the map, and no call that set the bit. -/
inductive AnswersRight (f : File) (calls : List (Int × List UInt8)) (i : Int) : Prop
  | owned : f.InRange i → f.seeded = true ∨ f.Stores calls i → AnswersRight f calls i
  | missing : f.InRange i → 0 < f.pieceSize → AnswersRight f calls i
  | padding {n : Int} : f.getPieceCount = .ok n → 0 ≤ i → n ≤ i → i < (n + 7) / 8 * 8 → 0 < f.pieceSize →
      f.seeded = false → ¬ f.Stores calls i → AnswersRight f calls i
  | sign {n : Int} : f.getPieceCount = .ok n → 0 < n → -7 ≤ i → i < 0 → 0 < f.pieceSize → f.seeded = false →
      ¬ f.Stores calls 7 → AnswersRight f calls i

end File

/-! ## Bits below the first -/

namespace BitSet

theorem mask_seven_ne_zero (x : UInt8) : (x &&& mask 7 ≠ 0) ↔ 128 ≤ x := by
  rw [and_mask_ne_zero, UInt8.le_iff_toNat_le]
  -- Bit 7 of a byte is its sign.
  have hmsb := BitVec.msb_eq_decide x.toBitVec
  rw [BitVec.msb_eq_getLsbD_last] at hmsb
  exact (Bool.eq_iff_iff.1 hmsb).trans decide_eq_true_iff

/-- A negative index reads the last bit of the first byte. -/
theorem test_negSucc (b : BitSet) (k : Nat) : b.test (.negSucc k) = if k < 7 then b.test 7 else .error .arrayIndex := by
  have hseven := b.test_natCast 7
  rw [Nat.div_eq_of_lt (by decide)] at hseven
  -- From -7 to -1 the byte is the first one, and the mask a bit above its eighth, where the sign is repeated.
  by_cases hk : k < 7
  · rw [if_pos hk, test, if_pos hk]
    cases hcell : b.bits[0]? with
    | none =>
        rw [hcell] at hseven
        exact hseven.symm
    | some x =>
        rw [hcell] at hseven
        exact (congrArg Except.ok (decide_eq_decide.2 (mask_seven_ne_zero x).symm)).trans hseven.symm
  · rw [if_neg hk, test, if_neg hk]

theorem tdiv_eight (m : Int) : m.tdiv 8 = if 0 ≤ m then m / 8 else -(-m / 8) := by
  by_cases hm : 0 ≤ m
  · rw [if_pos hm, Int.tdiv_eq_ediv_of_nonneg hm]
  · have hneg : m.tdiv 8 = -((-m).tdiv 8) := by rw [Int.neg_tdiv, Int.neg_neg]
    rw [if_neg hm, hneg, Int.tdiv_eq_ediv_of_nonneg (by omega)]

/-- The bytes of a new set, for a size that the constructor takes. -/
theorem bits_of_new {b : BitSet} (hlow : -(2 ^ 31) ≤ n) (hhigh : n < 2 ^ 31) (h : new n = .ok b) :
    b.bits = List.replicate ((n + 7) / 8).toNat 0 := by
  have hdiv := tdiv_eight (toInt32 (n + 7))
  unfold new at h
  dsimp only at h
  split at h
  · cases h
  · next hnonneg =>
      obtain rfl := Except.ok.inj h
      refine congrArg (List.replicate · 0) ?_
      by_cases hfits : n + 7 < 2 ^ 31
      · have hcut : toInt32 (n + 7) = n + 7 := toInt32_of_range (by omega) hfits
        rw [hcut] at hdiv hnonneg ⊢
        split at hdiv <;> omega
      · -- The sum wraps, and no array of a negative number of bytes can be made.
        have hcut : toInt32 (n + 7) = n + 7 - 2 ^ 32 := toInt32_of_wrap (by omega) (by omega)
        split at hdiv <;> omega

end BitSet

namespace File

/-! ## Loading -/

theorem Loaded.map (h : Loaded md5Hash f) : BufferMap.ofFile f.length f.pieceSize f.seeded = .ok f.bufferMap := by
  cases h with
  | incomplete h =>
      obtain ⟨bm, hmap, rfl⟩ := incomplete_eq_ok h
      exact hmap
  | seed h =>
      obtain ⟨bm, hmap, rfl⟩ := seed_eq_ok h
      exact hmap

theorem pieceCountOf_bounds {L p : Int} (h : pieceCountOf L p = .ok n) : p ≠ 0 ∧ -(2 ^ 31) ≤ n ∧ n < 2 ^ 31 := by
  unfold pieceCountOf at h
  split at h
  · cases h
  · next hp =>
      obtain rfl := Except.ok.inj h
      exact ⟨hp, toInt32_bounds _⟩

/-- The map of a loaded file shows all pieces or none, padding included. -/
theorem Loaded.isCompleted (h : Loaded md5Hash f) : ∃ n, f.getPieceCount = .ok n ∧ f.pieceSize ≠ 0 ∧
    ∀ j : Nat, f.bufferMap.isCompleted j = if (j : Int) < (n + 7) / 8 * 8 then .ok f.seeded else .error .arrayIndex := by
  have hmap := h.map
  unfold BufferMap.ofFile at hmap
  cases hcount : pieceCountOf f.length f.pieceSize with
  | error e =>
      rw [hcount] at hmap
      cases hmap
  | ok n =>
      obtain ⟨hp, hlow, hhigh⟩ := pieceCountOf_bounds hcount
      refine ⟨n, hcount, hp, fun j => ?_⟩
      rw [hcount, ok_bind] at hmap
      cases hnew : BitSet.new n with
      | error e =>
          rw [hnew] at hmap
          cases hmap
      | ok b =>
          rw [hnew] at hmap
          have hbits := BitSet.bits_of_new hlow hhigh hnew
          -- The places are those of whole bytes.
          have hplace : j / 8 < b.size ↔ (j : Int) < (n + 7) / 8 * 8 := by
            rw [BitSet.size, hbits, List.length_replicate]
            omega
          rw [BufferMap.isCompleted, ← Except.ok.inj hmap]
          by_cases hj : j / 8 < b.size
          · rw [if_pos (hplace.1 hj)]
            -- `setAll` fills the padding too.
            cases f.seeded with
            | true => exact BitSet.test_setAll hj
            | false =>
                have hget : b.bits[j / 8]? = some 0 := by
                  rw [BitSet.size, hbits, List.length_replicate] at hj
                  rw [hbits, List.getElem?_replicate_of_lt hj]
                exact BitSet.test_zero hget
          · have hout : ∀ b' : BitSet, b'.size = b.size → b'.test j = .error .arrayIndex := by
              intro b' hsize
              rw [BitSet.test_natCast, List.getElem?_eq_none (by unfold BitSet.size at hsize hj; omega)]
            rw [if_neg (mt hplace.2 hj)]
            split
            · exact hout _ (List.length_map _)
            · exact hout _ rfl

/-! ## Calls of `writePiece` -/

theorem writtenPiece_bufferMap (f : File) (i : Int) (data : List UInt8) :
    (f.writtenPiece i data).bufferMap = if f.Writes i then f.bufferMap.completed i else f.bufferMap := by
  unfold writtenPiece
  dsimp only
  by_cases hpos : toInt32 (f.pieceSize * i) < 0
  · have hnot : ¬ f.Writes i := fun h => Int.not_lt.2 h.1 hpos
    rw [if_pos hpos, if_neg hnot]
  · rw [if_neg hpos]
    -- The count of a size of zero throws after the bytes are written and before the bit is set.
    cases hcount : f.getPieceCount with
    | error e =>
        have hnot : ¬ f.Writes i := by
          intro h
          rw [getPieceCount, pieceCountOf, if_neg h.2] at hcount
          cases hcount
        rw [if_neg hnot]
    | ok c =>
        have hwrites : f.Writes i := ⟨Int.not_lt.1 hpos, (pieceCountOf_bounds hcount).1⟩
        rw [if_pos hwrites]

/-- What the calls leave: the description of the file, and the map with the pieces written. -/
theorem writtenPieces_shape (f : File) (calls : List (Int × List UInt8)) :
    (f.writtenPieces calls).length = f.length ∧ (f.writtenPieces calls).pieceSize = f.pieceSize ∧
      (f.writtenPieces calls).seeded = f.seeded ∧
      (f.writtenPieces calls).bufferMap = f.mapAfter f.bufferMap calls := by
  -- The induction is on the calls; each goes on with the file the one before it left.
  induction calls generalizing f with
  | nil => exact ⟨rfl, rfl, rfl, rfl⟩
  | cons x calls ih =>
      obtain ⟨-, hlength, hsize⟩ := f.writtenPiece_key x.1 x.2
      have hseeded : (f.writtenPiece x.1 x.2).seeded = f.seeded := by
        unfold writtenPiece
        dsimp only
        split
        · rfl
        · split <;> rfl
      obtain ⟨hlength', hsize', hseeded', hmap'⟩ := ih (f.writtenPiece x.1 x.2)
      refine ⟨hlength'.trans hlength, hsize'.trans hsize, hseeded'.trans hseeded, ?_⟩
      have hwrites : ∀ i, (f.writtenPiece x.1 x.2).Writes i ↔ f.Writes i := by
        intro i
        unfold Writes
        rw [hsize]
      have hshape : ∀ bm, (f.writtenPiece x.1 x.2).mapAfter bm calls = f.mapAfter bm calls := by
        intro bm
        unfold mapAfter
        simp only [hwrites]
      have hcons : f.writtenPieces (x :: calls) = (f.writtenPiece x.1 x.2).writtenPieces calls := rfl
      rw [hcons, hmap', hshape, writtenPiece_bufferMap]
      rfl

theorem getPieceCount_writtenPieces (f : File) (calls : List (Int × List UInt8)) :
    (f.writtenPieces calls).getPieceCount = f.getPieceCount := by
  obtain ⟨hlength, hsize, -, -⟩ := f.writtenPieces_shape calls
  rw [getPieceCount, hlength, hsize, getPieceCount]

/-- The bit of an index after the calls. -/
theorem Loaded.isCompleted_written (h : Loaded md5Hash f) (hcount : f.getPieceCount = .ok n)
    (calls : List (Int × List UInt8)) (j : Nat) : (f.writtenPieces calls).bufferMap.isCompleted j =
      if (j : Int) < (n + 7) / 8 * 8 then .ok (f.seeded || decide (f.Stores calls j)) else .error .arrayIndex := by
  obtain ⟨n', hcount', -, hloaded⟩ := h.isCompleted
  obtain rfl : n' = n := Except.ok.inj (hcount'.symm.trans hcount)
  obtain ⟨-, -, -, hmap⟩ := f.writtenPieces_shape calls
  rw [hmap, isCompleted_mapAfter, hloaded]
  by_cases hstores : f.Stores calls j
  · have hexists : ∃ x ∈ calls, f.Writes x.1 ∧ x.1 = j := hstores
    rw [if_pos hexists, decide_eq_true hstores, Bool.or_true]
    split <;> rfl
  · have hexists : ¬ ∃ x ∈ calls, f.Writes x.1 ∧ x.1 = j := hstores
    rw [if_neg hexists, decide_eq_false hstores, Bool.or_false]

/-- A call for an index that has a place in the map returns if and only if its position is not negative. -/
theorem Loaded.exists_writePiece_iff (h : Loaded md5Hash f) (hcount : f.getPieceCount = .ok n)
    (calls : List (Int × List UInt8)) {j : Nat} (hj : (j : Int) < (n + 7) / 8 * 8) (data : List UInt8) :
    (∃ g, (f.writtenPieces calls).writePiece j data = .ok g) ↔ f.Writes j := by
  obtain ⟨-, hsize, -, -⟩ := f.writtenPieces_shape calls
  have hbit := h.isCompleted_written hcount calls j
  rw [if_pos hj] at hbit
  obtain ⟨b, hset⟩ := BitSet.exists_set_iff.2 ⟨_, hbit⟩
  have hadd : (f.writtenPieces calls).bufferMap.addCompletedPart j = .ok ⟨b⟩ := by
    rw [BufferMap.addCompletedPart, hset]
    rfl
  -- The bit can be set, so the position is all that may throw.
  unfold writePiece
  rw [hsize, getPieceCount_writtenPieces, hcount, hadd]
  by_cases hpos : toInt32 (f.pieceSize * j) < 0
  · refine iff_of_false ?_ fun hw => Int.not_lt.2 hw.1 hpos
    rintro ⟨g, hg⟩
    dsimp only at hg
    rw [if_pos hpos] at hg
    cases hg
  · refine iff_of_true ?_ ⟨Int.not_lt.1 hpos, (pieceCountOf_bounds hcount).1⟩
    dsimp only
    rw [if_neg hpos]
    exact ⟨_, rfl⟩

theorem lt_places {j : Int} (hlt : j < n) : j < (n + 7) / 8 * 8 := by
  omega

/-- A piece is written by a call if and only if one of the calls is for it. -/
theorem Loaded.writtenBy_iff (h : Loaded md5Hash f) (hi : f.InRange i) : f.WrittenBy calls i ↔ f.Stores calls i := by
  obtain ⟨n, hcount, hnonneg, hlt⟩ := hi
  obtain ⟨j, rfl⟩ := Int.eq_ofNat_of_zero_le hnonneg
  have hplace := lt_places hlt
  constructor
  · rintro ⟨before, data, after, rfl, hg⟩
    exact ⟨(_, data), by simp, (h.exists_writePiece_iff hcount before hplace data).1 hg, rfl⟩
  · rintro ⟨⟨i, data⟩, hmem, hw, rfl⟩
    obtain ⟨before, after, rfl⟩ := List.append_of_mem hmem
    exact ⟨before, data, after, rfl, (h.exists_writePiece_iff hcount before hplace data).2 hw⟩

/-! ## Reading after the calls -/

theorem readPiece_noPart_iff : g.readPiece i = .error .noPart ↔
    0 ≤ g.pieceSize ∧ g.bufferMap.isCompleted i = .ok false := by
  unfold readPiece
  rw [checked_eq]
  by_cases hsize : g.pieceSize < 0
  · refine iff_of_false ?_ fun h => Int.not_lt.2 h.1 hsize
    rw [if_pos hsize]
    exact nofun
  · rw [if_neg hsize, and_iff_right (Int.not_lt.1 hsize)]
    cases hbit : g.bufferMap.isCompleted i with
    | error e =>
        obtain rfl := BitSet.test_error hbit
        exact iff_of_false nofun nofun
    | ok x =>
        cases x with
        | false => exact iff_of_true rfl rfl
        | true =>
            refine iff_of_false ?_ nofun
            dsimp only
            split <;> exact nofun

/-- All that can go wrong is a set bit. -/
theorem servesOwned_iff_bit : f.ServesOwned calls i ↔ f.Owns calls i ∨
    0 ≤ f.pieceSize ∧ (f.writtenPieces calls).bufferMap.isCompleted i = .ok false := by
  obtain ⟨-, hsize, -, -⟩ := f.writtenPieces_shape calls
  rw [← hsize, ← readPiece_noPart_iff]
  constructor
  · intro h
    by_cases hown : f.Owns calls i
    · exact .inl hown
    · exact .inr (h.refused hown)
  · rintro (hown | hrefused)
    · exact ⟨fun _ => hown, fun hnot => absurd hown hnot⟩
    · refine ⟨fun hdata => ?_, fun _ => hrefused⟩
      rw [hrefused] at hdata
      cases hdata

theorem Loaded.owns_iff (h : Loaded md5Hash f) :
    f.Owns calls i ↔ f.InRange i ∧ (f.seeded = true ∨ f.Stores calls i) :=
  and_congr_right fun hi => or_congr_right (h.writtenBy_iff hi)

/-- The bit of an index is clear, and the index has a place. -/
theorem Loaded.isCompleted_eq_false_iff (h : Loaded md5Hash f) (hcount : f.getPieceCount = .ok n) (j : Nat) :
    (f.writtenPieces calls).bufferMap.isCompleted j = .ok false ↔
      (j : Int) < (n + 7) / 8 * 8 ∧ f.seeded = false ∧ ¬ f.Stores calls j := by
  rw [h.isCompleted_written hcount]
  by_cases hj : (j : Int) < (n + 7) / 8 * 8
  · rw [if_pos hj, and_iff_right hj, Except.ok.injEq, Bool.or_eq_false_iff, decide_eq_false_iff_not]
  · rw [if_neg hj]
    exact iff_of_false nofun fun hout => hj hout.1

end File

/-- A seeded file of five bytes, in three pieces. -/
def fiveBytes : File :=
  { name := "f".toList
    key := []
    length := 5
    seeded := true
    pieceSize := 2
    bufferMap := ⟨⟨[0xFF]⟩⟩
    content := [1, 2, 3, 4, 5] }

theorem fiveBytes_loaded : fiveBytes.Loaded fun _ => [] :=
  .seed (show File.seed (fun _ => []) "f".toList 2 [1, 2, 3, 4, 5] = .ok fiveBytes from rfl)

namespace File

/-- Every piece is marked completed. -/
def Complete (f : File) : Prop := ∀ i, f.InRange i → f.bufferMap.isCompleted i = .ok true

/-- The flag says what the map says, a finished file is declared as seed and not as leech in any list, and is not
chosen for download. -/
structure SeededWhenComplete (f : File) : Prop where
  seeded_iff : f.seeded = true ↔ f.Complete
  declared : f.Complete → ∀ before after, doUpdate (before ++ f :: after) =
    "update seed [".toList ++ (seedEntries before ++ (f.announceSeed ++ ' ' :: seedEntries after)) ++
      "] leech [".toList ++ leechEntries (before ++ after) ++ "]\n".toList
  unchosen : f.Complete → ∀ files, chooseFile files ≠ .ok f

theorem complete_iff_written (h : f.Loaded md5Hash) : (f.writtenPieces calls).Complete ↔
    f.seeded = true ∨ ∀ i, f.InRange i → f.Stores calls i := by
  obtain ⟨n, hcount, -, -⟩ := h.isCompleted
  have hrange : ∀ i, (f.writtenPieces calls).InRange i ↔ f.InRange i := by
    intro i
    rw [InRange, getPieceCount_writtenPieces, InRange]
  have hbit : ∀ i, f.InRange i → ((f.writtenPieces calls).bufferMap.isCompleted i = .ok true ↔
      f.seeded = true ∨ f.Stores calls i) := by
    rintro i ⟨n', hcount', hnonneg, hlt⟩
    obtain ⟨j, rfl⟩ := Int.eq_ofNat_of_zero_le hnonneg
    rw [h.isCompleted_written hcount', if_pos (lt_places hlt), Except.ok.injEq, Bool.or_eq_true,
      decide_eq_true_iff]
  -- Piece by piece, a bit is set by the constructor or by a call.
  unfold Complete
  constructor
  · intro hall
    by_cases hseeded : f.seeded = true
    · exact .inl hseeded
    · exact .inr fun i hi => ((hbit i hi).1 (hall i ((hrange i).2 hi))).resolve_left hseeded
  · intro hor i hi
    have hi' := (hrange i).1 hi
    exact (hbit i hi').2 (hor.imp_right fun hstores => hstores i hi')

theorem doUpdate_seeded (hseeded : f.seeded = true) (before after : List File) : doUpdate (before ++ f :: after) =
    "update seed [".toList ++ (seedEntries before ++ (f.announceSeed ++ ' ' :: seedEntries after)) ++
      "] leech [".toList ++ leechEntries (before ++ after) ++ "]\n".toList := by
  -- The file stands in the first list of the message, and not in the second.
  have hseed : seedEntries (before ++ f :: after) =
      seedEntries before ++ (f.announceSeed ++ ' ' :: seedEntries after) := by
    unfold seedEntries seededFiles
    rw [List.filter_append, List.filter_cons_of_pos hseeded]
    simp [announceSeed, tokens]
  have hleech : leechEntries (before ++ f :: after) = leechEntries (before ++ after) := by
    unfold leechEntries leechedFiles
    rw [List.filter_append, List.filter_cons_of_neg (by simp [hseeded]), List.filter_append]
  have hseedText := seedString_eq (before ++ f :: after)
  have hleechText := leechString_eq (before ++ f :: after)
  rw [doUpdate, sendDeclare, hseedText, hleechText]
  rw [seedEntries] at hseed
  rw [leechEntries] at hleech
  rw [hseed, hleech]
  simp [leechEntries]

end File

/-- The same file before it is downloaded. -/
def fiveBytesWanted : File :=
  { fiveBytes with
    seeded := false
    bufferMap := ⟨⟨[0]⟩⟩
    content := [] }

theorem fiveBytesWanted_loaded : fiveBytesWanted.Loaded fun _ => [] :=
  .incomplete (show File.incomplete "f".toList 5 2 [] [] = .ok fiveBytesWanted from rfl)

end JavaClient
end Raiezau
