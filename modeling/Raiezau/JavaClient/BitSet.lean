import Raiezau.JavaClient.Basic

/-!
# BitSet — the piece maps of the Java client

`BitSet`.  A method that throws yields the exception; `int` arithmetic wraps.  Division truncates, so
the indices from -7 to -1 also fall into the first byte, with a bit beyond its eight.
-/

namespace Raiezau
namespace JavaClient

open CUtil

structure BitSet where
  bits : List UInt8
  deriving DecidableEq, Repr

namespace BitSet

/-- `new byte[(size + 7) / 8]`, all zero. -/
def new (size : Int) : Except JavaError BitSet :=
  let n := (toInt32 (size + 7)).tdiv 8
  if n < 0 then .error .negativeArraySize else .ok ⟨List.replicate n.toNat 0⟩

def mask (i : Nat) : UInt8 := 1 <<< UInt8.ofNat (i % 8)

def set (b : BitSet) : Int → Except JavaError BitSet
  | .ofNat i =>
      if i / 8 < b.bits.length then .ok ⟨b.bits.modify (i / 8) (· ||| mask i)⟩ else .error .arrayIndex
  -- The cast to `byte` drops the bit.
  | .negSucc k => if k < 7 ∧ 0 < b.bits.length then .ok b else .error .arrayIndex

def clear (b : BitSet) : Int → Except JavaError BitSet
  | .ofNat i =>
      if i / 8 < b.bits.length then .ok ⟨b.bits.modify (i / 8) (· &&& ~~~ mask i)⟩ else .error .arrayIndex
  | .negSucc k => if k < 7 ∧ 0 < b.bits.length then .ok b else .error .arrayIndex

def setAll (b : BitSet) : BitSet := ⟨b.bits.map fun _ => 0xFF⟩

def clearAll (b : BitSet) : BitSet := ⟨b.bits.map fun _ => 0⟩

def test (b : BitSet) : Int → Except JavaError Bool
  | .ofNat i =>
      match b.bits[i / 8]? with
      | some x => .ok (x &&& mask i ≠ 0)
      | none => .error .arrayIndex
  -- The byte is sign-extended: every bit beyond the eighth is its sign.
  | .negSucc k =>
      match if k < 7 then b.bits[0]? else none with
      | some x => .ok (128 ≤ x)
      | none => .error .arrayIndex

def toByteArray (b : BitSet) : List UInt8 := b.bits

def fromByteArray (array : List UInt8) : BitSet := ⟨array⟩

def size (b : BitSet) : Nat := b.bits.length

/-! ## Bits -/

theorem set_natCast (b : BitSet) (i : Nat) : b.set i =
    if i / 8 < b.bits.length then .ok ⟨b.bits.modify (i / 8) (· ||| mask i)⟩ else .error .arrayIndex :=
  rfl

theorem test_natCast (b : BitSet) (i : Nat) : b.test i =
    match b.bits[i / 8]? with
    | some x => .ok (x &&& mask i ≠ 0)
    | none => .error .arrayIndex :=
  rfl

theorem test_error {b : BitSet} {i : Int} {e : JavaError} (h : b.test i = .error e) : e = .arrayIndex := by
  unfold test at h
  split at h
  · split at h
    · cases h
    · exact (Except.error.inj h).symm
  · split at h
    · cases h
    · exact (Except.error.inj h).symm

theorem mask_toBitVec (i : Nat) : (mask i).toBitVec = BitVec.twoPow 8 (i % 8) := by
  have hall : ∀ j, j < 8 → (1 <<< UInt8.ofNat j : UInt8).toBitVec = BitVec.twoPow 8 j := by decide
  exact hall (i % 8) (Nat.mod_lt _ (by decide))

theorem and_mask_ne_zero (x : UInt8) (i : Nat) :
    (x &&& mask i ≠ 0) ↔ x.toBitVec.getLsbD (i % 8) = true := by
  have hlt : i % 8 < 8 := Nat.mod_lt _ (by decide)
  rw [ne_eq, ← UInt8.toBitVec_inj, UInt8.toBitVec_and, mask_toBitVec, BitVec.and_twoPow]
  cases x.toBitVec.getLsbD (i % 8) with
  | false => simp
  | true =>
      have hpow : BitVec.twoPow 8 (i % 8) ≠ 0#8 := by
        intro h
        have hbit := congrArg (fun v : BitVec 8 => v.getLsbD (i % 8)) h
        simp [hlt] at hbit
      simpa using hpow

theorem or_mask_and_mask (x : UInt8) (i j : Nat) :
    ((x ||| mask i) &&& mask j ≠ 0) ↔ i % 8 = j % 8 ∨ x &&& mask j ≠ 0 := by
  have hlt : i % 8 < 8 := Nat.mod_lt _ (by decide)
  rw [and_mask_ne_zero, and_mask_ne_zero, UInt8.toBitVec_or, BitVec.getLsbD_or, mask_toBitVec,
    BitVec.getLsbD_twoPow, Bool.or_eq_true]
  simp only [hlt, decide_true, Bool.true_and, decide_eq_true_eq]
  exact or_comm

/-- Setting a bit sets that bit and no other. -/
theorem test_set {b b' : BitSet} {i j : Nat} (h : b.set i = .ok b') :
    b'.test j = (b.test j).map fun x => x || decide (i = j) := by
  rw [set_natCast] at h
  split at h
  · next hin =>
      obtain rfl := Except.ok.inj h
      rw [test_natCast, test_natCast, List.getElem?_modify]
      -- Another byte is not touched; in the same one the masks of different bits do not meet.
      by_cases hbyte : i / 8 = j / 8
      · cases hx : b.bits[j / 8]? with
        | none =>
            rw [List.getElem?_eq_none_iff] at hx
            omega
        | some x =>
            have hiff : i % 8 = j % 8 ↔ i = j := by omega
            simp only [hbyte, if_true, Option.map_eq_map, Option.map_some, Except.map, Except.ok.injEq,
              or_mask_and_mask, hiff]
            by_cases hij : i = j <;> simp [hij]
      · have hij : i ≠ j := fun h => hbyte (h ▸ rfl)
        simp only [hbyte, if_false, hij, decide_false, Bool.or_false]
        cases b.bits[j / 8]? <;> simp [Except.map]
  · cases h

theorem and_not_mask_and_mask (x : UInt8) (i j : Nat) :
    ((x &&& ~~~ mask i) &&& mask j ≠ 0) ↔ i % 8 ≠ j % 8 ∧ x &&& mask j ≠ 0 := by
  have hlt : j % 8 < 8 := Nat.mod_lt _ (by decide)
  rw [and_mask_ne_zero, and_mask_ne_zero, UInt8.toBitVec_and, UInt8.toBitVec_not, BitVec.getLsbD_and,
    BitVec.getLsbD_not, mask_toBitVec, BitVec.getLsbD_twoPow, Bool.and_eq_true]
  have hlt' : i % 8 < 8 := Nat.mod_lt _ (by decide)
  simp only [hlt, hlt', decide_true, Bool.true_and, Bool.not_eq_true', decide_eq_false_iff_not]
  exact and_comm

/-- Clearing a bit clears that bit and no other. -/
theorem test_clear {b b' : BitSet} {i j : Nat} (h : b.clear i = .ok b') :
    b'.test j = (b.test j).map fun x => x && decide (i ≠ j) := by
  rw [show b.clear i = if i / 8 < b.bits.length then .ok ⟨b.bits.modify (i / 8) (· &&& ~~~ mask i)⟩
    else .error .arrayIndex from rfl] at h
  split at h
  · obtain rfl := Except.ok.inj h
    rw [test_natCast, test_natCast, List.getElem?_modify]
    cases hx : b.bits[j / 8]? with
    | none => rfl
    | some x =>
        by_cases hbyte : i / 8 = j / 8
        · have hiff : i % 8 ≠ j % 8 ↔ i ≠ j := by omega
          simp only [hbyte, if_true, Option.map_eq_map, Option.map_some, Except.map, Except.ok.injEq,
            and_not_mask_and_mask, hiff]
          by_cases hij : i = j <;> simp [hij]
        · have hij : i ≠ j := fun h => hbyte (h ▸ rfl)
          simp [hbyte, hij, Except.map]
  · cases h

theorem size_set {b b' : BitSet} {i : Int} (h : b.set i = .ok b') : b'.size = b.size := by
  unfold set at h
  split at h <;> split at h
  · obtain rfl := Except.ok.inj h
    simp [size]
  · cases h
  · obtain rfl := Except.ok.inj h
    rfl
  · cases h

theorem exists_set {b : BitSet} {i : Nat} (hi : i / 8 < b.size) : ∃ b', b.set i = .ok b' :=
  ⟨_, (b.set_natCast i).trans (if_pos hi)⟩

theorem size_clear {b b' : BitSet} {i : Int} (h : b.clear i = .ok b') : b'.size = b.size := by
  unfold clear at h
  split at h <;> split at h
  · obtain rfl := Except.ok.inj h
    simp [size]
  · cases h
  · obtain rfl := Except.ok.inj h
    rfl
  · cases h

theorem exists_clear {b : BitSet} {i : Nat} (hi : i / 8 < b.size) : ∃ b', b.clear i = .ok b' := ⟨_, if_pos hi⟩

/-- A bit can be set if and only if it can be read. -/
theorem exists_set_iff {b : BitSet} {i : Nat} : (∃ b', b.set i = .ok b') ↔ ∃ x, b.test i = .ok x := by
  rw [set_natCast, test_natCast]
  by_cases hin : i / 8 < b.bits.length
  · rw [if_pos hin, List.getElem?_eq_getElem hin]
    exact ⟨fun _ => ⟨_, rfl⟩, fun _ => ⟨_, rfl⟩⟩
  · rw [if_neg hin, List.getElem?_eq_none (Nat.not_lt.1 hin)]
    exact ⟨nofun, nofun⟩

/-- The bit that was set. -/
theorem test_set_self {b b' : BitSet} {i : Nat} (h : b.set i = .ok b') : b'.test i = .ok true := by
  obtain ⟨x, hx⟩ := exists_set_iff.1 ⟨b', h⟩
  rw [test_set h, hx]
  simp [Except.map]

/-- Setting a bit that is set changes nothing. -/
theorem set_of_test {b b' : BitSet} {i : Nat} (h : b.set i = .ok b') (hi : b.test i = .ok true) : b' = b := by
  rw [set_natCast] at h
  rw [test_natCast] at hi
  split at h
  · obtain rfl := Except.ok.inj h
    refine congrArg BitSet.mk (List.ext_getElem? fun k => ?_)
    rw [List.getElem?_modify]
    by_cases hk : i / 8 = k
    · subst hk
      split at hi
      · next x hx =>
          have hbit : x.toBitVec.getLsbD (i % 8) = true := (and_mask_ne_zero x i).1 (by simpa using hi)
          have hor : x ||| mask i = x := by
            rw [← UInt8.toBitVec_inj, UInt8.toBitVec_or, mask_toBitVec]
            refine BitVec.eq_of_getLsbD_eq fun j hj => ?_
            rw [BitVec.getLsbD_or, BitVec.getLsbD_twoPow]
            by_cases hji : i % 8 = j
            · rw [← hji, hbit, Bool.true_or]
            · simp [hji]
          rw [hx]
          simp [hor]
      · cases hi
    · simp [hk]
  · cases h

theorem test_setAll {b : BitSet} {i : Nat} (hi : i / 8 < b.size) : b.setAll.test i = .ok true := by
  have hone : (0xFF : UInt8) &&& mask i ≠ 0 := by
    have hall : ∀ j, j < 8 → (0xFF : UInt8).toBitVec.getLsbD j = true := by decide
    exact (and_mask_ne_zero _ _).2 (hall (i % 8) (Nat.mod_lt _ (by decide)))
  have hget : b.setAll.bits[i / 8]? = some 0xFF := by
    unfold size at hi
    simp [setAll, hi]
  simp only [test_natCast, hget, decide_eq_true hone]

theorem test_zero {b : BitSet} {i : Nat} (h : b.bits[i / 8]? = some 0) : b.test i = .ok false := by
  have hzero : (0 : UInt8) &&& mask i = 0 := UInt8.zero_and
  rw [test_natCast, h]
  simp [hzero]

theorem test_clearAll {b : BitSet} {i : Nat} (hi : i / 8 < b.size) : b.clearAll.test i = .ok false := by
  refine test_zero ?_
  unfold size at hi
  simp [clearAll, hi]

end BitSet

end JavaClient
end Raiezau
