import Raiezau.JavaClient.File

/-!
# Reassembly — a file put together from its pieces, in any order

The leecher writes at each index the array the seeder reads there.  `Assembled S` is what holds after
the pieces of `S` have been written, in whatever order: those pieces hold the seeder's bytes, their bits
are set, and once the last piece has been written the file has its length.
-/

namespace Raiezau
namespace JavaClient

open CUtil Bytes

variable {C : List UInt8} {p n : Nat} {s l l' : File} {S : Nat → Prop}

/-! ## The size of a piece map -/

theorem BitSet.new_of_fits {n : Nat} (h : n + 7 < 2 ^ 31) :
    BitSet.new n = .ok ⟨List.replicate ((n + 7) / 8) 0⟩ := by
  have hsum : toInt32 ((n : Int) + 7) = (n + 7 : Nat) := by
    rw [← toInt32_of_lt h]
    rfl
  have hdiv : ((n + 7 : Nat) : Int).tdiv 8 = ((n + 7) / 8 : Nat) := (Int.ofNat_tdiv _ _).symm
  simp only [BitSet.new, hsum, hdiv]
  rw [if_neg (by omega)]
  rfl

/-- The number of bytes is computed in `int`: when the sum wraps it comes out negative. -/
theorem BitSet.new_of_overflow {n : Nat} (hn : n < 2 ^ 31) (h : 2 ^ 31 ≤ n + 7) :
    BitSet.new n = .error .negativeArraySize := by
  have hsum : toInt32 ((n : Int) + 7) = -((2 ^ 32 - (n + 7) : Nat) : Int) := by
    rw [toInt32_of_wrap (by omega) (by omega)]
    omega
  have hdiv : (-((2 ^ 32 - (n + 7) : Nat) : Int)).tdiv 8 = -(((2 ^ 32 - (n + 7)) / 8 : Nat) : Int) := by
    rw [Int.neg_tdiv]
    exact congrArg Neg.neg (Int.ofNat_tdiv _ _).symm
  simp only [BitSet.new, hsum, hdiv]
  rw [if_pos (by omega)]

/-! ## What is written so far -/

/-- A file of the pieces of `C`, those of `S` written. -/
structure Assembled (C : List UInt8) (p n : Nat) (S : Nat → Prop) (l : File) : Prop where
  length_eq : l.length = C.length
  pieceSize_eq : l.pieceSize = p
  count : l.getPieceCount = .ok (n : Int)
  map_size : (n + 7) / 8 ≤ l.bufferMap.size
  bits : ∀ {i}, S i → l.bufferMap.isCompleted i = .ok true
  bytes : ∀ {i k}, S i → p * i ≤ k → k < p * i + p → k < C.length → l.content[k]? = C[k]?
  cut : ∀ {i}, S i → i + 1 = n → l.content.length = C.length

/-- A file whose pieces can all be read: the seeder. -/
structure Seeds (C : List UInt8) (p n : Nat) (s : File) : Prop where
  pieceSize_eq : s.pieceSize = p
  content_eq : s.content = C
  bits : ∀ {i}, i < n → s.bufferMap.isCompleted i = .ok true

theorem readPiece_spec (hpieces : Pieces C.length p n) (hs : Seeds C p n s) {i : Nat} (hi : i < n) :
    s.readPiece i = .ok (readAt 0 C (p * i) p) := by
  have hpos := hpieces.toInt32_pos hi
  simp only [File.readPiece, hs.pieceSize_eq, hs.content_eq, hs.bits hi, hpos]
  rw [if_neg (by omega), if_neg (by omega)]
  rfl

/-- The file before it is cut. -/
def written (C : List UInt8) (p i : Nat) (l : File) : List UInt8 :=
  writeAt 0 l.content (p * i) (readAt 0 C (p * i) p)

theorem readAt_ne_nil (hpieces : Pieces C.length p n) (i : Nat) : readAt 0 C (p * i) p ≠ [] := by
  intro hnil
  have hlen : (readAt 0 C (p * i) p).length = p := length_readAt
  have hpos := hpieces.size_pos
  rw [hnil, List.length_nil] at hlen
  omega

theorem length_written (hpieces : Pieces C.length p n) (i : Nat) :
    (written C p i l).length = max l.content.length (p * i + p) := by
  rw [written, length_writeAt (readAt_ne_nil hpieces i), length_readAt]

/-- The piece just written holds the bytes of `C`, and so do those written before. -/
theorem written_bytes (hpieces : Pieces C.length p n) (hl : Assembled C p n S l) {i j k : Nat}
    (hj : j = i ∨ S j) (hlo : p * j ≤ k) (hhi : k < p * j + p) (hk : k < C.length) :
    (written C p i l)[k]? = C[k]? := by
  have hget : C[k]? = some C[k] := List.getElem?_eq_getElem hk
  rw [written, getElem?_writeAt (readAt_ne_nil hpieces i), length_readAt]
  -- Inside the piece just written, and outside of it.
  by_cases hin : p * i ≤ k ∧ k < p * i + p
  · have hoff : p * i + (k - p * i) = k := by omega
    rw [if_neg (by omega), if_pos hin.2, getElem?_readAt (by omega), hoff, hget]
    rfl
  · have hold : l.content[k]? = C[k]? := by
      rcases hj with rfl | hj
      · exact absurd ⟨hlo, hhi⟩ hin
      · exact hl.bytes hj hlo hhi hk
    rw [hold, hget]
    split
    · rfl
    · rw [if_neg (by omega)]

theorem last_iff (hpieces : Pieces C.length p n) {i : Nat} (hi : i < n) :
    (i : Int) = toInt32 ((n : Int) - 1) ↔ i + 1 = n := by
  have hle : n - 1 < C.length := by
    have := hpieces.needed (i := n - 1) (by omega)
    have := Nat.le_mul_of_pos_left (n - 1) hpieces.size_pos
    omega
  have hcast : (n : Int) - 1 = (n - 1 : Nat) := by omega
  have hfit := hpieces.fits
  rw [hcast, toInt32_of_lt (by omega)]
  omega

theorem writePiece_eq (hpieces : Pieces C.length p n) (hl : Assembled C p n S l) {i : Nat}
    (hi : i < n) : ∃ bm, l.bufferMap.addCompletedPart i = .ok bm ∧
      l.writePiece i (readAt 0 C (p * i) p) = .ok
        { l with
          content := if i + 1 = n then (written C p i l).take C.length else written C p i l
          bufferMap := bm } := by
  have hmap := hl.map_size
  obtain ⟨b, hb⟩ := BitSet.exists_set (b := l.bufferMap.bitSet) (i := i)
    (Nat.lt_of_lt_of_le (by omega) hmap)
  have hbm : l.bufferMap.addCompletedPart i = .ok ⟨b⟩ := by
    rw [BufferMap.addCompletedPart, hb]
    rfl
  refine ⟨⟨b⟩, hbm, ?_⟩
  have hpos := hpieces.toInt32_pos hi
  simp only [File.writePiece, hl.pieceSize_eq, hl.count, hl.length_eq, hpos, hbm, bind, Except.bind,
    last_iff hpieces hi]
  rw [if_neg (by omega)]
  rfl

theorem writePiece_spec (hpieces : Pieces C.length p n) (hl : Assembled C p n S l) {i : Nat}
    (hi : i < n) : ∃ l', l.writePiece i (readAt 0 C (p * i) p) = .ok l' ∧
      Assembled C p n (fun j => j = i ∨ S j) l' := by
  obtain ⟨bm, hbm, heq⟩ := writePiece_eq hpieces hl hi
  obtain ⟨b, hset, rfl⟩ : ∃ b, l.bufferMap.bitSet.set i = .ok b ∧ BufferMap.mk b = bm := by
    unfold BufferMap.addCompletedPart at hbm
    cases hset : l.bufferMap.bitSet.set i with
    | error e =>
        rw [hset] at hbm
        cases hbm
    | ok b =>
        rw [hset] at hbm
        exact ⟨b, rfl, Except.ok.inj hbm⟩
  refine ⟨_, heq, hl.length_eq, hl.pieceSize_eq, hl.count, ?_, ?_, ?_, ?_⟩
  · exact hl.map_size.trans_eq (BitSet.size_set hset).symm
  · intro j hj
    rcases hj with rfl | hj
    · exact BitSet.test_set_self hset
    · have htest := BitSet.test_set (j := j) hset
      have hold : l.bufferMap.bitSet.test j = .ok true := hl.bits hj
      rw [hold] at htest
      exact htest
  · intro j k hj hlo hhi hk
    have hbytes := written_bytes hpieces hl hj hlo hhi hk
    dsimp only
    split
    · rw [List.getElem?_take_of_lt hk, hbytes]
    · exact hbytes
  · intro j hj hlast
    have hlen := length_written (l := l) hpieces i
    dsimp only
    split
    · next hcut =>
        have hend := hpieces.end_le hcut
        rw [List.length_take, hlen]
        omega
    · next hmid =>
        have hend := hpieces.end_lt (i := i) (by omega)
        have hcut : l.content.length = C.length := by
          rcases hj with rfl | hj
          · exact absurd hlast hmid
          · exact hl.cut hj hlast
        rw [hlen]
        omega

/-! ## Any sequence of pieces -/

/-- Write at each index, in turn, what the seeder reads there. -/
def reassemble (s l : File) (is : List Nat) : Except JavaError File :=
  is.foldlM (fun l (i : Nat) => do
    let data ← s.readPiece i
    l.writePiece i data) l

theorem reassemble_spec (hpieces : Pieces C.length p n) (hs : Seeds C p n s) {is : List Nat}
    (hrange : ∀ i ∈ is, i < n) (hl : Assembled C p n S l) :
    ∃ l', reassemble s l is = .ok l' ∧ Assembled C p n (fun j => j ∈ is ∨ S j) l' := by
  -- Each piece written adds its index to those assembled.
  induction is generalizing l S with
  | nil => exact ⟨l, rfl, by simpa using hl⟩
  | cons i is ih =>
      have hi : i < n := hrange i (by simp)
      obtain ⟨l₁, hwrite, hl₁⟩ := writePiece_spec hpieces hl hi
      obtain ⟨l', hrest, hl'⟩ := ih (fun j hj => hrange j (by simp [hj])) hl₁
      refine ⟨l', ?_, ?_⟩
      · rw [reassemble, List.foldlM_cons, readPiece_spec hpieces hs hi]
        change (l.writePiece i (readAt 0 C (p * i) p) >>= _) = _
        rw [hwrite]
        exact hrest
      · have hsets : (fun j => j ∈ i :: is ∨ S j) = fun j => j ∈ is ∨ j = i ∨ S j := by
          funext j
          simp only [List.mem_cons, or_assoc, or_left_comm]
        rw [hsets]
        exact hl'

/-- A file all of whose pieces have been written is the seeder's. -/
theorem Assembled.content_eq (hpieces : Pieces C.length p n) (hC : C ≠ []) (hl : Assembled C p n S l)
    (hall : ∀ i, i < n → S i) : l.content = C := by
  have hpos : 0 < C.length := List.length_pos_iff.2 hC
  have hn : 0 < n := by
    obtain ⟨i, hi, -⟩ := hpieces.exists_piece hpos
    omega
  have hlen : l.content.length = C.length := hl.cut (hall (n - 1) (by omega)) (by omega)
  refine List.ext_getElem? fun k => ?_
  -- Every position lies in a piece, and the last write has cut what is behind.
  rcases Nat.lt_or_ge k C.length with hk | hk
  · obtain ⟨i, hi, hlo, hhi⟩ := hpieces.exists_piece hk
    exact hl.bytes (hall i hi) hlo hhi hk
  · rw [List.getElem?_eq_none hk, List.getElem?_eq_none (hlen ▸ hk)]

/-! ## The claim of the file format -/

/-- A file sent piece by piece arrives: it equals the seeder's and all its pieces are complete. -/
def Reassembles (md5Hash : List UInt8 → CString) (name key : CString) (C : List UInt8) (p : Nat)
    (D : List UInt8) (n : Nat) (is : List Nat) : Prop :=
  ∃ s l l', File.seed md5Hash name p C = .ok s ∧ File.incomplete name C.length p key D = .ok l ∧
    reassemble s l is = .ok l' ∧ l'.content = C ∧ l'.content.length = C.length ∧
    ∀ i, i < n → l'.bufferMap.isCompleted i = .ok true

theorem ofFile_of_fits (hn : pieceCountOf C.length p = .ok (n : Int)) (hfits : n + 7 < 2 ^ 31)
    (seeded : Bool) : BufferMap.ofFile C.length p seeded =
      .ok ⟨if seeded then BitSet.setAll ⟨List.replicate ((n + 7) / 8) 0⟩
        else ⟨List.replicate ((n + 7) / 8) 0⟩⟩ := by
  have hnew := BitSet.new_of_fits hfits
  rw [BufferMap.ofFile, hn, ok_bind, hnew, ok_bind]
  rfl

theorem seed_spec (md5Hash : List UInt8 → CString) (name : CString)
    (hn : pieceCountOf C.length p = .ok (n : Int)) (hfits : n + 7 < 2 ^ 31) :
    ∃ s, File.seed md5Hash name p C = .ok s ∧ Seeds C p n s := by
  simp only [File.seed, ofFile_of_fits hn hfits, bind, Except.bind, pure, Except.pure]
  refine ⟨_, rfl, rfl, rfl, fun {i} hi => ?_⟩
  refine BitSet.test_setAll ?_
  simp only [BitSet.size, List.length_replicate]
  omega

theorem incomplete_spec (name key : CString) (D : List UInt8)
    (hn : pieceCountOf C.length p = .ok (n : Int)) (hfits : n + 7 < 2 ^ 31) :
    ∃ l, File.incomplete name C.length p key D = .ok l ∧ Assembled C p n (fun _ => False) l := by
  simp only [File.incomplete, ofFile_of_fits hn hfits, bind, Except.bind, pure, Except.pure]
  refine ⟨_, rfl, rfl, rfl, hn, ?_, fun h => h.elim, fun h => h.elim, fun h => h.elim⟩
  simp [BufferMap.size, BitSet.size]

/-- The construction of a file fails when its piece map is too large to count in `int`. -/
theorem seed_overflow {md5Hash : List UInt8 → CString} {name : CString}
    (hn : pieceCountOf C.length p = .ok (n : Int)) (hlt : n < 2 ^ 31) (hover : 2 ^ 31 ≤ n + 7) :
    File.seed md5Hash name p C = .error .negativeArraySize := by
  have hnew := BitSet.new_of_overflow hlt hover
  rw [File.seed, BufferMap.ofFile, hn, ok_bind, hnew, error_bind, error_bind]

theorem Pieces.count_le (hpieces : Pieces C.length p n) : n ≤ C.length := by
  rcases Nat.eq_zero_or_pos n with rfl | hn
  · exact Nat.zero_le _
  · have := hpieces.needed (i := n - 1) (by omega)
    have := Nat.le_mul_of_pos_left (n - 1) hpieces.size_pos
    omega

/-- Pieces written in any order, with any repetitions, over any old file give the seeder's file exactly
if the piece map can be built at all. -/
theorem reassembles_iff {md5Hash : List UInt8 → CString} {name key : CString} {D : List UInt8}
    {is : List Nat} (hC : C ≠ []) (hp : 0 < p) (hfit : C.length + p - 1 < 2 ^ 31)
    (hn : pieceCountOf C.length p = .ok (n : Int)) (hrange : ∀ i ∈ is, i < n)
    (hcover : ∀ i, i < n → i ∈ is) :
    Reassembles md5Hash name key C p D n is ↔ n + 7 < 2 ^ 31 := by
  have hpieces : Pieces C.length p n := pieces_of_count (List.length_pos_iff.2 hC) hp (by omega) hn
  constructor
  · rintro ⟨s, l, l', hseed, -⟩
    by_contra hover
    have hcount := hpieces.count_le
    rw [seed_overflow hn (by omega) (by omega)] at hseed
    cases hseed
  · intro hfits
    obtain ⟨s, hseed, hs⟩ := seed_spec md5Hash name hn hfits
    obtain ⟨l, hinc, hl⟩ := incomplete_spec name key D hn hfits
    obtain ⟨l', hre, hl'⟩ := reassemble_spec hpieces hs hrange hl
    have hcontent := hl'.content_eq hpieces hC fun i hi => .inl (hcover i hi)
    exact ⟨s, l, l', hseed, hinc, hre, hcontent, congrArg List.length hcontent,
      fun i hi => hl'.bits (.inl (hcover i hi))⟩

theorem reassembles_iff_five_bytes :
    Reassembles (fun _ => []) "f".toList "k".toList [1, 2, 3, 4, 5] 2 [9, 9, 9, 9, 9, 9, 9] 3
      [2, 0, 2, 1, 0] :=
  (reassembles_iff (by decide) (by decide) (by decide) (by decide) (by decide) (by decide)).2
    (by decide)

/-- A file of `2 ^ 31 - 1` bytes. -/
def hugeFile : List UInt8 := List.replicate (2 ^ 31 - 1) 0

theorem length_hugeFile : hugeFile.length = 2 ^ 31 - 1 := List.length_replicate

/-- Cut into pieces of one byte, the huge file cannot even be seeded. -/
theorem hugeFile_not_reassembled :
    hugeFile ≠ [] ∧ hugeFile.length + 1 - 1 < 2 ^ 31 ∧
      pieceCountOf hugeFile.length (1 : Nat) = .ok ((2 ^ 31 - 1 : Nat) : Int) ∧
      (∀ i ∈ List.range (2 ^ 31 - 1), i < 2 ^ 31 - 1) ∧
      (∀ i, i < 2 ^ 31 - 1 → i ∈ List.range (2 ^ 31 - 1)) ∧
      ¬ Reassembles (fun _ => []) "f".toList "k".toList hugeFile 1 [] (2 ^ 31 - 1)
        (List.range (2 ^ 31 - 1)) := by
  have hcount : pieceCountOf hugeFile.length (1 : Nat) = .ok ((2 ^ 31 - 1 : Nat) : Int) := by
    rw [length_hugeFile]
    decide
  refine ⟨?_, ?_, hcount, fun i hi => List.mem_range.1 hi, fun i hi => List.mem_range.2 hi, ?_⟩
  · intro hnil
    have hlen := length_hugeFile
    rw [hnil] at hlen
    cases hlen
  · rw [length_hugeFile]
    decide
  · rintro ⟨s, l, l', hseed, -⟩
    rw [seed_overflow hcount (by decide) (by decide)] at hseed
    cases hseed

end JavaClient
end Raiezau
