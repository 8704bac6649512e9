import Raiezau.JavaClient.Completion
import Raiezau.JavaClient.IndexSet

/-!
# Geometry — counts, places and positions of the pieces

A length is a `long`; the sum it is divided from, the number of pieces and the positions are `int`s.  They are
right up to one bound on the length and one on the number of pieces, and the number is right at no other length.
-/

namespace Raiezau
namespace JavaClient

open CUtil Bytes

variable {L p n : Nat}

/-! ## Positions -/

namespace File

/-- The `startPos` of `readPiece` and the `pos` of `writePiece`. -/
def seekPos (f : File) (index : Int) : Int := toInt32 (f.pieceSize * index)

theorem readPiece_eq (f : File) (i : Int) : f.readPiece i = (do
    if f.pieceSize < 0 then throw .negativeArraySize
    if !(← f.bufferMap.isCompleted i) then throw .noPart
    if f.seekPos i < 0 then throw .io
    pure (readAt 0 f.content (f.seekPos i).toNat f.pieceSize.toNat)) := rfl

theorem writePiece_eq (f : File) (i : Int) (data : List UInt8) : f.writePiece i data = (do
    if f.seekPos i < 0 then throw .io
    let written := writeAt 0 f.content (f.seekPos i).toNat data
    let pieceCount ← f.getPieceCount
    let content := if i = toInt32 (pieceCount - 1) then written.take f.length.toNat else written
    let bufferMap ← f.bufferMap.addCompletedPart i
    pure { f with content := content, bufferMap := bufferMap }) := rfl

end File

/-- The pieces of a file of `L` bytes: their number, a place in the map for each, and where each of them starts. -/
structure Measured (L p : Nat) : Prop where
  count_eq : pieceCountOf L p = .ok (L ⌈/⌉ p : Nat)
  place : ∀ seeded, ∃ bm, BufferMap.ofFile L p seeded = .ok bm ∧
    ∀ i < L ⌈/⌉ p, ∃ bm', bm.addCompletedPart i = .ok bm'
  position : ∀ f : File, f.length = L → f.pieceSize = p → ∀ i < L ⌈/⌉ p, f.seekPos i = (p * i : Nat)

/-! ## The number of pieces -/

theorem tdiv_nonpos {s : Int} (hs : s ≤ 0) (p : Nat) : s.tdiv p ≤ 0 := by
  have hneg := Int.tdiv_nonneg (Int.neg_nonneg_of_nonpos hs) (Int.natCast_nonneg p)
  rw [Int.neg_tdiv] at hneg
  omega

/-- The quotient of an `int` by a size is an `int`. -/
theorem toInt32_tdiv (s : Int) (p : Nat) : toInt32 ((toInt32 s).tdiv p) = (toInt32 s).tdiv p := by
  obtain ⟨hlow, hhigh⟩ := toInt32_bounds s
  have habs := Int.natAbs_tdiv_le_natAbs (toInt32 s) p
  rcases Int.lt_or_le 0 (toInt32 s) with hpos | hneg
  · exact toInt32_of_range (by omega) (by omega)
  · have hquot := tdiv_nonpos hneg p
    exact toInt32_of_range (by omega) (by omega)

/-- A sum that wraps is divided to less than the sum. -/
theorem tdiv_toInt32_lt (hp : 0 < p) (hfits : p < 2 ^ 31) {s : Nat} (hs : 2 ^ 31 ≤ s) :
    (toInt32 s).tdiv p < (s / p : Nat) := by
  have hle : toInt32 s ≤ s - 2 ^ 32 := by
    unfold toInt32
    rw [Int.bmod_eq_emod]
    split <;> omega
  by_cases hneg : toInt32 s < 0
  · have hquot := tdiv_nonpos (Int.le_of_lt hneg) p
    have hpos : 0 < s / p := Nat.div_pos (by omega) hp
    omega
  · -- The sum and what is left of it differ by two sizes of a piece at least.
    obtain ⟨t, ht⟩ := Int.eq_ofNat_of_zero_le (Int.not_lt.1 hneg)
    have hlt : t + p ≤ s := by omega
    have hquot : t / p + 1 ≤ s / p := by
      rw [← Nat.add_div_right t hp]
      exact Nat.div_le_div_right hlt
    have hcast : (toInt32 s).tdiv p = (t / p : Nat) := by
      rw [ht]
      exact (Int.ofNat_tdiv t p).symm
    omega

theorem pieceCountOf_eq (hp : 0 < p) (hfits : p < 2 ^ 31) (L : Nat) :
    pieceCountOf L p = .ok ((toInt32 (L + p - 1 : Nat)).tdiv p) := by
  have hsub : toInt32 ((p : Int) - 1) = (p : Int) - 1 := toInt32_of_range (by omega) (by omega)
  have hsum : (L : Int) + ((p : Int) - 1) = (L + p - 1 : Nat) := by omega
  rw [pieceCountOf, if_neg (by omega), hsub, hsum, toInt32_tdiv]

/-- The number of pieces is right if and only if the sum does not wrap. -/
theorem pieceCountOf_eq_iff (hp : 0 < p) (hfits : p < 2 ^ 31) :
    pieceCountOf L p = .ok (L ⌈/⌉ p : Nat) ↔ L + p ≤ 2 ^ 31 := by
  rw [pieceCountOf_eq hp hfits, Except.ok.injEq, Nat.ceilDiv_eq_add_pred_div]
  constructor
  · intro h
    by_contra hover
    exact Int.ne_of_lt (tdiv_toInt32_lt hp hfits (by omega)) h
  · intro hle
    rw [toInt32_of_lt (by omega)]
    exact (Int.ofNat_tdiv _ p).symm

/-! ## Places and positions -/

theorem lt_of_lt_ceilDiv (hp : 0 < p) {i : Nat} (hi : i < L ⌈/⌉ p) : p * i < L := by
  rw [Nat.ceilDiv_eq_add_pred_div, Nat.lt_div_iff_mul_lt hp] at hi
  rw [Nat.mul_comm]
  omega

theorem ofFile_of_count (hcount : pieceCountOf L p = .ok (n : Int)) (hplaces : n + 7 < 2 ^ 31) (seeded : Bool) :
    ∃ bm, BufferMap.ofFile L p seeded = .ok bm ∧ ∀ i < n, ∃ bm', bm.addCompletedPart i = .ok bm' := by
  obtain ⟨b, hnew, hholds⟩ := BitSet.holds_new hplaces
  -- `setAll` keeps the number of bytes, so the places are the same for both flags.
  have hsize : ∀ b' : BitSet, b'.size = b.size → ∀ i < n, ∃ bm', (BufferMap.mk b').addCompletedPart i = .ok bm' := by
    intro b' hb' i hi
    obtain ⟨b'', hset⟩ := BitSet.exists_set (hb' ▸ hholds.lt_size hi)
    refine ⟨⟨b''⟩, ?_⟩
    rw [BufferMap.addCompletedPart, hset]
    rfl
  refine ⟨⟨if seeded then b.setAll else b⟩, ?_, hsize _ ?_⟩
  · rw [BufferMap.ofFile, hcount, ok_bind, hnew]
    rfl
  · split
    · exact List.length_map _
    · rfl

/-- Number, places and positions are right exactly below two bounds. -/
theorem measured_iff (hp : 0 < p) (hsize : p < 2 ^ 31) (hcount : L ⌈/⌉ p < 2 ^ 31) :
    Measured L p ↔ L + p ≤ 2 ^ 31 ∧ L ⌈/⌉ p + 7 < 2 ^ 31 := by
  rw [← pieceCountOf_eq_iff hp hsize]
  constructor
  · intro h
    refine ⟨h.count_eq, ?_⟩
    -- Without room for the padding `new BitSet` throws.
    by_contra hover
    obtain ⟨bm, hmap, -⟩ := h.place false
    rw [BufferMap.ofFile, h.count_eq, ok_bind, BitSet.new_of_overflow hcount (Nat.not_lt.1 hover)] at hmap
    cases hmap
  · rintro ⟨hceil, hplaces⟩
    refine ⟨hceil, ofFile_of_count hceil hplaces, ?_⟩
    intro f hlength hpiece i hi
    have hstart := lt_of_lt_ceilDiv hp hi
    have hbound := (pieceCountOf_eq_iff hp hsize).1 hceil
    rw [File.seekPos, hpiece, ← Int.natCast_mul]
    exact toInt32_of_lt (by omega)

theorem measured_five_bytes : Measured 5 2 :=
  (measured_iff (by decide) (by decide) (by decide)).2 (by decide)

/-- The length of a file of 3 GiB in pieces of 1 KiB wraps: its number of pieces comes out negative. -/
theorem large_file_miscounted : 3 * 2 ^ 30 < 2 ^ 63 ∧ 3 * 2 ^ 30 ⌈/⌉ 1024 < 2 ^ 31 ∧
    ¬ Measured (3 * 2 ^ 30) 1024 := by
  refine ⟨by decide, by decide, fun h => ?_⟩
  have hcount := h.count_eq
  revert hcount
  decide

/-! ## Reading all of a file -/

theorem File.readPiece_eq_ok {f : File} {i : Int} {data : List UInt8} (h : f.readPiece i = .ok data) :
    f.bufferMap.isCompleted i = .ok true ∧ 0 ≤ f.seekPos i := by
  rw [readPiece_eq, checked_eq] at h
  split at h
  · cases h
  · split at h
    · cases h
    · cases h
    · next hbit =>
        refine ⟨hbit, Int.not_lt.1 fun hneg => ?_⟩
        rw [if_pos hneg] at h
        cases h

/-- A multiple of the size between two powers, when there is one past the first. -/
theorem exists_between (hp : 0 < p) (hsize : p < 2 ^ 31) {m : Nat} (hm : 2 ^ 31 ≤ p * m) :
    ∃ i ≤ m, 2 ^ 31 ≤ p * i ∧ p * i < 2 ^ 32 := by
  -- The steps are shorter than the gap.
  induction m with
  | zero => omega
  | succ m ih =>
      by_cases hlow : 2 ^ 31 ≤ p * m
      · obtain ⟨i, hi, hbounds⟩ := ih hlow
        exact ⟨i, Nat.le_succ_of_le hi, hbounds⟩
      · rw [Nat.mul_succ] at hm
        refine ⟨m + 1, Nat.le_refl _, ?_⟩
        rw [Nat.mul_succ]
        omega

theorem toInt32_of_between {s : Nat} (hlow : 2 ^ 31 ≤ s) (hup : s < 2 ^ 32) : toInt32 s < 0 := by
  rw [toInt32_of_wrap (by omega) (by omega)]
  omega

/-- When the last piece starts below `2 ^ 31`, but the sum wraps, the pieces are too large for their number. -/
theorem tdiv_nonpos_of_wrap (hp : 0 < p) (hsize : p < 2 ^ 31) {s : Nat} (hs : 2 ^ 31 ≤ s)
    (hlast : p * (s / p - 1) < 2 ^ 31) : (toInt32 s).tdiv p ≤ 0 := by
  have hquot : p * (s / p - 1) + p = p * (s / p) := by
    rw [← Nat.mul_succ, Nat.succ_eq_add_one, Nat.sub_add_cancel (Nat.div_pos (by omega) hp)]
  have hdiv := Nat.div_add_mod s p
  have hmod := Nat.mod_lt s hp
  have hupper : s < 3 * 2 ^ 31 := by omega
  by_cases hneg : toInt32 s < 0
  · exact tdiv_nonpos (Int.le_of_lt hneg) p
  · have hcut : toInt32 s = (s - 2 ^ 32 : Nat) := by
      have hwrap : toInt32 s = s - 2 ^ 32 := toInt32_of_wrap (by omega) (by omega)
      omega
    have hsmall : s - 2 ^ 32 < p := by
      by_contra hlarge
      have hthree : 3 ≤ s / p := by
        rw [Nat.le_div_iff_mul_le hp]
        omega
      have htwo : p * 2 ≤ p * (s / p - 1) := Nat.mul_le_mul_left p (by omega)
      omega
    rw [hcut, ← Int.ofNat_tdiv, Nat.div_eq_of_lt hsmall]
    rfl

/-- A file all of whose pieces can be read is within the first bound. -/
theorem le_of_readable {md5Hash : List UInt8 → CString} {name : CString} {C : List UInt8} {f : File} (hp : 0 < p)
    (hsize : p < 2 ^ 31) (hseed : File.seed md5Hash name p C = .ok f)
    (hread : ∀ i < C.length ⌈/⌉ p, ∃ data, f.readPiece i = .ok data) : C.length + p ≤ 2 ^ 31 := by
  by_contra hover
  have hloaded : f.Loaded md5Hash := .seed hseed
  obtain ⟨n, hcount, -, hbits⟩ := hloaded.isCompleted
  obtain ⟨hlength, hpiece⟩ : f.length = C.length ∧ f.pieceSize = p := by
    obtain ⟨bm, -, rfl⟩ := File.seed_eq_ok hseed
    exact ⟨rfl, rfl⟩
  obtain ⟨s, hs⟩ : ∃ s, s = C.length + p - 1 := ⟨_, rfl⟩
  have hlarge : 2 ^ 31 ≤ s := by omega
  have hmpos : 0 < s / p := Nat.div_pos (by omega) hp
  rw [Nat.ceilDiv_eq_add_pred_div, ← hs] at hread
  rw [File.getPieceCount, hlength, hpiece, pieceCountOf_eq hp hsize, ← hs] at hcount
  -- The bit of the last piece has a place, so the count is positive.
  have hplace : ((s / p - 1 : Nat) : Int) < (n + 7) / 8 * 8 := by
    obtain ⟨data, hdata⟩ := hread (s / p - 1) (Nat.sub_lt hmpos Nat.one_pos)
    have hbit := (File.readPiece_eq_ok hdata).1
    rw [hbits] at hbit
    by_contra hout
    rw [if_neg hout] at hbit
    cases hbit
  -- No position lies where an `int` is negative, so all of them are below.
  have hpositions : p * (s / p - 1) < 2 ^ 31 := by
    by_contra hhigh
    obtain ⟨i, hi, hlow, hup⟩ := exists_between hp hsize (Nat.not_lt.1 hhigh)
    obtain ⟨data, hdata⟩ := hread i (Nat.lt_of_le_of_lt hi (Nat.sub_lt hmpos Nat.one_pos))
    have hpos := (File.readPiece_eq_ok hdata).2
    rw [File.seekPos, hpiece, ← Int.natCast_mul] at hpos
    exact Int.not_lt.2 hpos (toInt32_of_between hlow hup)
  have hnonpos := tdiv_nonpos_of_wrap hp hsize hlarge hpositions
  rw [Except.ok.inj hcount] at hnonpos
  omega

/-- Below both bounds a seeded file can be made, and each of its pieces read. -/
theorem exists_readable {md5Hash : List UInt8 → CString} (name : CString) {C : List UInt8} (hp : 0 < p)
    (hsize : p < 2 ^ 31) (hfits : C.length + p ≤ 2 ^ 31) (hplaces : C.length ⌈/⌉ p + 7 < 2 ^ 31) :
    ∃ f, File.seed md5Hash name p C = .ok f ∧
      ∀ i < C.length ⌈/⌉ p, f.readPiece i = .ok (readAt 0 C (p * i) p) := by
  have hcount := (pieceCountOf_eq_iff hp hsize).2 hfits
  obtain ⟨f, hseed, hseeds⟩ := seed_spec md5Hash name hcount hplaces
  -- An empty file has no piece to read.
  refine ⟨f, hseed, fun i hi => ?_⟩
  have hlength : 0 < C.length := Nat.lt_of_le_of_lt (Nat.zero_le _) (lt_of_lt_ceilDiv hp hi)
  exact readPiece_spec (pieces_of_count hlength hp hfits hcount) hseeds hi

theorem places_of_seed {md5Hash : List UInt8 → CString} {name : CString} {C : List UInt8} {f : File} (hp : 0 < p)
    (hsize : p < 2 ^ 31) (hfits : C.length + p ≤ 2 ^ 31) (hseed : File.seed md5Hash name p C = .ok f) :
    C.length ⌈/⌉ p + 7 < 2 ^ 31 := by
  have hcount := (pieceCountOf_eq_iff hp hsize).2 hfits
  have hle : C.length ⌈/⌉ p ≤ C.length := by
    rw [Nat.ceilDiv_eq_add_pred_div, Nat.div_le_iff_le_mul_add_pred hp]
    have := Nat.le_mul_of_pos_left C.length hp
    omega
  by_contra hover
  rw [seed_overflow hcount (by omega) (Nat.not_lt.1 hover)] at hseed
  cases hseed

end JavaClient
end Raiezau
