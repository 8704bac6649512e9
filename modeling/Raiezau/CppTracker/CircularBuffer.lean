import Raiezau.Bytes.Ring
import Raiezau.CUtil.CString

/-!
# CircularBuffer — the socket buffers of the C++ tracker

`common/containers/CircularBuffer.cpp`.  The buffer is an array with a read position, a write position and
a number of bytes; `held` are the bytes it holds.  A call that the source answers with `abort` is `none`.
-/

namespace Raiezau
namespace CppTracker

open Bytes CUtil

/-! ## Model -/

structure CircularBuffer where
  capacity : Nat
  size : Nat
  r : Nat
  w : Nat
  buf : List UInt8
  deriving DecidableEq, Repr

/-- The outcome of `::write(fd, p, n)`. -/
inductive SysWrite
  | accepts (k : Nat)
  | again
  deriving DecidableEq, Repr

namespace SysWrite

/-- `ret`, which is an `int`. -/
def ret : SysWrite → Int
  | .accepts k => toInt32 k
  | .again => -1

/-- What the descriptor took of the bytes at `p`. -/
def taken (data : List UInt8) : SysWrite → List UInt8
  | .accepts k => data.take k
  | .again => []

/-- An outcome that a write of `n` bytes can have. -/
def Possible (n : Nat) : SysWrite → Prop
  | .accepts k => 1 ≤ k ∧ k ≤ n
  | .again => True

instance (n : Nat) (x : SysWrite) : Decidable (x.Possible n) := by
  cases x <;> unfold Possible <;> infer_instance

/-- The count fits an `int`. -/
def Small : SysWrite → Prop
  | .accepts k => k < 2 ^ 31
  | .again => True

theorem ret_accepts {k : Nat} (hk : (accepts k).Small) : (accepts k).ret = k := toInt32_of_lt hk

theorem ret_again : again.ret ≤ 0 := Int.neg_nonpos_of_nonneg (Int.zero_le_ofNat 1)

@[simp] theorem taken_again (data : List UInt8) : again.taken data = [] := rfl

/-- A count that does not fit is cut to less. -/
theorem ret_lt {k : Nat} (hk : ¬ (accepts k).Small) : (accepts k).ret < k := by
  have hbounds := toInt32_bounds k
  have hk' : ¬ k < 2 ^ 31 := hk
  show toInt32 k < k
  omega

theorem length_taken {k : Nat} {data : List UInt8} (hk : k ≤ data.length) :
    ((accepts k).taken data).length = k := List.length_take_of_le hk

end SysWrite

/-- The `float` nearest to a number, the even one of two. -/
def roundFloat (n : Nat) : Nat :=
  let e := n.log2 + 1 - 24
  let q := n / 2 ^ e
  let rest := n % 2 ^ e
  (if 2 ^ e < 2 * rest ∨ (2 ^ e = 2 * rest ∧ q % 2 = 1) then q + 1 else q) * 2 ^ e

/-- `_capacity * 1.5f`, as a `size_t`: the product is rounded in halves. -/
def scaledCapacity (capacity : Nat) : Nat := roundFloat (3 * roundFloat capacity) / 2

namespace CircularBuffer

/-- What `memcpy` writes lies within the array. -/
def memcpy (buf : List UInt8) (pos : Nat) (data : List UInt8) : List UInt8 := writeAt 0 buf pos data

def new (capacity : Nat) : CircularBuffer :=
  { capacity := capacity
    size := 0
    r := 0
    w := 0
    buf := List.replicate capacity 0 }

def remainingSpace (b : CircularBuffer) : Nat := b.capacity - b.size

def write (b : CircularBuffer) (data : List UInt8) : Option CircularBuffer :=
  if data.length ≤ b.remainingSpace then
    let size := b.size + data.length
    if b.w + data.length ≤ b.capacity then
      some { b with buf := memcpy b.buf b.w data, w := b.w + data.length, size := size }
    else
      let cut := b.capacity - b.w
      let buf := memcpy (memcpy b.buf b.w (data.take cut)) 0 (data.drop cut)
      some { b with buf := buf, w := data.length - cut, size := size }
  else none

def read (b : CircularBuffer) (size : Nat) : Option (List UInt8 × CircularBuffer) :=
  if size ≤ b.size then
    if b.r + size ≤ b.capacity then
      some ((b.buf.drop b.r).take size, { b with r := b.r + size, size := b.size - size })
    else
      let cut := b.capacity - b.r
      some ((b.buf.drop b.r).take cut ++ b.buf.take (size - cut),
        { b with r := size - cut, size := b.size - size })
  else none

/-- What `peek` returns and copies when so many bytes are held. -/
def peekHeld (b : CircularBuffer) (size : Nat) : Int × List UInt8 :=
  if b.r + size < b.capacity then (toInt32 size, (b.buf.drop b.r).take size)
  else
    let cut := b.capacity - b.r
    (toInt32 size, (b.buf.drop b.r).take cut ++ b.buf.take (size - cut))

def peek (b : CircularBuffer) (size : Nat) : Int × List UInt8 :=
  if size ≤ b.size then b.peekHeld size else b.peekHeld b.size

def reset (b : CircularBuffer) : CircularBuffer := { b with r := 0, w := 0, size := 0 }

/-- `resize(1.5)`.  The new array is zeroed here; the source leaves it as it comes. -/
def resize (b : CircularBuffer) : Option CircularBuffer := do
  let newCap := scaledCapacity b.capacity
  let (data, _) ← b.read (min b.size newCap)
  some
    { capacity := newCap
      size := b.size
      r := 0
      w := b.size
      buf := memcpy (List.replicate newCap 0) 0 data }

/-- `while (len > remainingSpace()) resize(1.5)`: every round adds to the capacity. -/
def makeRoom (len : Nat) : Nat → CircularBuffer → Option CircularBuffer
  | fuel, b =>
      if b.remainingSpace < len then
        match fuel with
        | 0 => none
        | fuel + 1 => do
            let b ← b.resize
            makeRoom len fuel b
      else some b

/-- Make room for the data, then write it. -/
def append (b : CircularBuffer) (data : List UInt8) : Option CircularBuffer := do
  let b ← makeRoom data.length data.length b
  b.write data

/-- The result, the bytes the descriptor took, and the buffer after.  The second outcome is that of the
write from the start of the array, where there is one. -/
def writeToFd (b : CircularBuffer) (first second : SysWrite) : Int × List UInt8 × CircularBuffer :=
  if b.r + b.size ≤ b.capacity then
    let out := first.taken ((b.buf.drop b.r).take b.size)
    if first.ret ≤ 0 then (first.ret, out, b)
    else if first.ret.toNat < b.size then
      (first.ret, out, { b with r := b.r + first.ret.toNat, size := b.size - first.ret.toNat })
    else (toInt32 b.size, out, { b with size := 0, r := 0, w := 0 })
  else
    let cut := b.capacity - b.r
    let out := first.taken ((b.buf.drop b.r).take cut)
    if first.ret ≤ 0 then (first.ret, out, b)
    else if first.ret.toNat < cut then
      (first.ret, out, { b with r := b.r + first.ret.toNat, size := b.size - first.ret.toNat })
    else
      let out := out ++ second.taken (b.buf.take (b.size - cut))
      if second.ret ≤ 0 then (second.ret, out, b)
      else if second.ret.toNat < b.size - cut then
        -- The `cut` bytes of the first write are not taken off the size.
        (second.ret, out, { b with r := second.ret.toNat, size := b.size - second.ret.toNat })
      else (toInt32 b.size, out, { b with size := 0, r := 0, w := 0 })

def contains (b : CircularBuffer) (c : UInt8) : Bool :=
  if b.r < b.w then decide (c ∈ (b.buf.drop b.r).take (b.w - b.r))
  else if b.w < b.r then
    decide (c ∈ (b.buf.drop b.r).take (b.capacity - b.r)) || decide (c ∈ b.buf.take b.w)
  else false

def haveWord (b : CircularBuffer) : Bool := b.contains 32

def haveLine (b : CircularBuffer) : Bool := b.contains 10

/-- The loop of `readUntil` that reads up to `stop`: what it appends, and the buffer after. -/
def readTo (b : CircularBuffer) (c : UInt8) (stop : Nat) : List UInt8 × CircularBuffer :=
  let part := ((b.buf.drop b.r).take (stop - b.r)).takeWhile (fun x => x ≠ c)
  (part, { b with r := b.r + part.length, size := b.size - part.length })

def readUntil (b : CircularBuffer) (c : UInt8) : List UInt8 × CircularBuffer :=
  let (first, b) :=
    if b.w < b.r then
      let (first, b) := b.readTo c b.capacity
      -- The reading goes on at the start of the array, also from the middle of its end.
      (first, { b with r := 0 })
    else ([], b)
  let (second, b) := b.readTo c b.w
  let b := if 0 < b.size then { b with r := b.r + 1, size := b.size - 1 } else b
  (first ++ second, b)

end CircularBuffer

/-! ## Growth -/

theorem roundFloat_ge (n : Nat) : 16777215 * n ≤ 16777216 * roundFloat n := by
  unfold roundFloat
  have hmod := Nat.div_add_mod n (2 ^ (n.log2 + 1 - 24))
  have hlt := Nat.mod_lt n (Nat.two_pow_pos (n.log2 + 1 - 24))
  -- The last place is worth at most one part in `2 ^ 23`.
  have hulp : 8388608 * 2 ^ (n.log2 + 1 - 24) ≤ n ∨ 2 ^ (n.log2 + 1 - 24) = 1 := by
    by_cases hbig : 24 ≤ n.log2 + 1
    · left
      have hn : n ≠ 0 := by
        rintro rfl
        simp at hbig
      have hpow : 8388608 * 2 ^ (n.log2 + 1 - 24) = 2 ^ n.log2 := by
        have hexp : n.log2 = 23 + (n.log2 + 1 - 24) := by omega
        conv => rhs; rw [hexp, Nat.pow_add]
      rw [hpow]
      exact Nat.log2_self_le hn
    · right
      have hexp : n.log2 + 1 - 24 = 0 := by omega
      rw [hexp, Nat.pow_zero]
  dsimp only
  generalize 2 ^ (n.log2 + 1 - 24) = p at hmod hlt hulp ⊢
  have hcomm : p * (n / p) = n / p * p := Nat.mul_comm _ _
  split
  · rw [Nat.add_mul]
    omega
  · omega

/-- A buffer that is resized gets larger. -/
theorem lt_scaledCapacity {c : Nat} (hc : 4 ≤ c) : c < scaledCapacity c := by
  have hfirst := roundFloat_ge c
  have hsecond := roundFloat_ge (3 * roundFloat c)
  unfold scaledCapacity
  omega

/-! ## What a buffer holds -/

namespace CircularBuffer

variable {b b' : CircularBuffer} {data : List UInt8}

def held (b : CircularBuffer) : List UInt8 := ring b.buf b.r b.size

/-- The bytes held go on at the start of the array. -/
def Wrapped (b : CircularBuffer) : Prop := b.capacity < b.r + b.size

instance (b : CircularBuffer) : Decidable b.Wrapped := inferInstanceAs (Decidable (_ < _))

/-- Both positions may rest at the end of the array; the bytes held end at the write position. -/
structure Shape (b : CircularBuffer) : Prop where
  length_eq : b.buf.length = b.capacity
  r_le : b.r ≤ b.capacity
  size_le : b.size ≤ b.capacity
  w_eq : b.w = if b.Wrapped then b.r + b.size - b.capacity else b.r + b.size

/-- A buffer that `resize(1.5)` makes larger. -/
structure Rep (b : CircularBuffer) : Prop extends Shape b where
  large : 4 ≤ b.capacity

theorem shape_new (c : Nat) : (new c).Shape := by
  refine ⟨List.length_replicate, Nat.zero_le _, Nat.zero_le _, ?_⟩
  have hw : ¬ (new c).Wrapped := Nat.not_lt_zero c
  rw [if_neg hw]
  rfl

theorem rep_new {c : Nat} (hc : 4 ≤ c) : (new c).Rep := ⟨shape_new c, hc⟩

theorem Shape.length_held (h : b.Shape) : b.held.length = b.size :=
  length_ring (h.length_eq ▸ h.size_le)

/-- Room is left for the data: it is put behind what is held. -/
theorem Shape.write (h : b.Shape) (hdata : data.length ≤ b.remainingSpace) :
    ∃ b', b.write data = some b' ∧ b'.Shape ∧ b'.held = b.held ++ data ∧ b'.capacity = b.capacity ∧
      b'.r = b.r := by
  have hlen := h.length_eq
  have hr := h.r_le
  have hsize := h.size_le
  have hw := h.w_eq
  unfold remainingSpace at hdata
  unfold CircularBuffer.write
  rw [if_pos (show data.length ≤ b.remainingSpace from hdata)]
  -- When wrapped the free bytes are in one piece, else they are on both sides of what is held.
  by_cases hwrap : b.Wrapped
  · rw [if_pos hwrap] at hw
    unfold Wrapped at hwrap
    rw [if_pos (by omega)]
    refine ⟨_, rfl, ⟨?_, hr, ?_, ?_⟩, ?_, rfl, rfl⟩
    · exact (length_writeAt_within (by omega)).trans hlen
    · dsimp only
      omega
    · have hwrap' : b.capacity < b.r + (b.size + data.length) := by omega
      simp only [Wrapped, hwrap', if_true]
      omega
    · have hring := ring_append_wrapped (z := 0) (s := b.buf) (r := b.r) (n := b.size) (d := data)
        (by omega) (by omega) (by omega)
      rw [hlen, ← hw] at hring
      exact hring
  · rw [if_neg hwrap] at hw
    unfold Wrapped at hwrap
    split
    · next hfits =>
        refine ⟨_, rfl, ⟨?_, hr, ?_, ?_⟩, ?_, rfl, rfl⟩
        · exact (length_writeAt_within (by omega)).trans hlen
        · dsimp only
          omega
        · have hwrap' : ¬ b.capacity < b.r + (b.size + data.length) := by omega
          simp only [Wrapped, hwrap', if_false]
          omega
        · have hring := ring_append (z := 0) (s := b.buf) (r := b.r) (n := b.size) (d := data)
            (by omega)
          rw [← hw] at hring
          exact hring
    · next hcross =>
        have hfirst : (data.take (b.capacity - b.w)).length = b.capacity - b.w := by
          rw [List.length_take]
          omega
        have hbuf : (memcpy b.buf b.w (data.take (b.capacity - b.w))).length = b.capacity :=
          (length_writeAt_within (by omega)).trans hlen
        refine ⟨_, rfl, ⟨?_, hr, ?_, ?_⟩, ?_, rfl, rfl⟩
        · refine (length_writeAt_within ?_).trans hbuf
          rw [hbuf, List.length_drop]
          omega
        · dsimp only
          omega
        · have hwrap' : b.capacity < b.r + (b.size + data.length) := by omega
          simp only [Wrapped, hwrap', if_true]
          omega
        · have hring := ring_append_across (z := 0) (s := b.buf) (r := b.r) (n := b.size) (d := data)
            (by omega) (by omega) (by omega)
          rw [hlen, ← hw] at hring
          exact hring

theorem Rep.write (h : b.Rep) (hdata : data.length ≤ b.remainingSpace) :
    ∃ b', b.write data = some b' ∧ b'.Rep ∧ b'.held = b.held ++ data ∧ b'.capacity = b.capacity ∧
      b'.r = b.r := by
  obtain ⟨b', hwrite, hshape, hheld, hcap, hr⟩ := h.toShape.write hdata
  exact ⟨b', hwrite, ⟨hshape, hcap ▸ h.large⟩, hheld, hcap, hr⟩

/-- The oldest bytes are read and taken off. -/
theorem Shape.read (h : b.Shape) {n : Nat} (hn : n ≤ b.size) :
    ∃ b', b.read n = some (b.held.take n, b') ∧ b'.Shape ∧ b'.held = b.held.drop n ∧
      b'.capacity = b.capacity := by
  have hlen := h.length_eq
  have hr := h.r_le
  have hsize := h.size_le
  have hw := h.w_eq
  unfold CircularBuffer.read
  rw [if_pos hn]
  split
  · next hfits =>
      have htake : (b.buf.drop b.r).take n = b.held.take n := by
        rw [held, ring, List.take_take, Nat.min_eq_left hn, List.take_append_of_le_length]
        rw [List.length_drop]
        omega
      have hdrop : b.held.drop n = ring b.buf (b.r + n) (b.size - n) := drop_ring (by omega)
      have hsum : b.r + n + (b.size - n) = b.r + b.size := by omega
      have hiff : ({ b with r := b.r + n, size := b.size - n } : CircularBuffer).Wrapped ↔ b.Wrapped := by
        unfold Wrapped
        dsimp only
        rw [hsum]
      refine ⟨{ b with r := b.r + n, size := b.size - n }, by rw [htake], ⟨hlen, hfits, ?_, ?_⟩,
        hdrop.symm, rfl⟩
      · show b.size - n ≤ b.capacity
        omega
      · show b.w = if _ then b.r + n + (b.size - n) - b.capacity else b.r + n + (b.size - n)
        rw [hw, hsum]
        exact (if_congr hiff rfl rfl).symm
  · next hcross =>
      have hwrap : b.Wrapped := show b.capacity < b.r + b.size by omega
      rw [if_pos hwrap] at hw
      have hfirst : (b.buf.drop b.r).take (b.capacity - b.r) = b.buf.drop b.r :=
        List.take_of_length_le (by simp [hlen])
      have hpos : n - (b.capacity - b.r) = b.r + n - b.buf.length := by omega
      have htake : b.buf.drop b.r ++ b.buf.take (n - (b.capacity - b.r)) = b.held.take n := by
        rw [held, ring, List.take_take, Nat.min_eq_left hn, ← ring, ring_of_lt (by omega) (by omega), hpos]
      have hdrop : b.held.drop n = ring b.buf (n - (b.capacity - b.r)) (b.size - n) := by
        rw [held, drop_ring_wrapped (by omega) (by omega) hn (by omega), hpos]
      have hwrap' : ¬ b.capacity < n - (b.capacity - b.r) + (b.size - n) := by omega
      refine ⟨{ b with r := n - (b.capacity - b.r), size := b.size - n }, ?_, ⟨hlen, ?_, ?_, ?_⟩,
        hdrop.symm, rfl⟩
      · dsimp only
        rw [hfirst, htake]
      · show n - (b.capacity - b.r) ≤ b.capacity
        omega
      · show b.size - n ≤ b.capacity
        omega
      · simp only [Wrapped, hwrap', if_false]
        omega

/-- The oldest bytes are shown. -/
theorem Shape.peek (h : b.Shape) (n : Nat) :
    b.peek n = (toInt32 (min n b.size : Nat), b.held.take n) := by
  have hlen := h.length_eq
  have hr := h.r_le
  have hsize := h.size_le
  have hpeek : ∀ n, n ≤ b.size → b.peekHeld n = (toInt32 n, b.held.take n) := by
    intro n hn
    unfold peekHeld
    rw [held, ring, List.take_take, Nat.min_eq_left hn]
    split
    · next hin => rw [List.take_append_of_le_length (by rw [List.length_drop]; omega)]
    · next hend =>
        have hfirst : (b.buf.drop b.r).length = b.capacity - b.r := by rw [List.length_drop, hlen]
        have hcut : (b.buf.drop b.r).take (b.capacity - b.r) = (b.buf.drop b.r).take n := by
          rw [List.take_of_length_le (Nat.le_of_eq hfirst), List.take_of_length_le (by omega)]
        dsimp only
        rw [List.take_append, hfirst, hcut]
  unfold CircularBuffer.peek
  split
  · next hn => rw [hpeek n hn, Nat.min_eq_left hn]
  · next hn =>
      have hle : b.size ≤ n := by omega
      rw [hpeek b.size (Nat.le_refl _), Nat.min_eq_right hle]
      rw [List.take_of_length_le (Nat.le_of_eq h.length_held),
        List.take_of_length_le (h.length_held ▸ hle)]

theorem Shape.reset (h : b.Shape) : b.reset.Shape ∧ b.reset.held = [] := by
  refine ⟨⟨h.length_eq, Nat.zero_le _, Nat.zero_le _, ?_⟩, ring_zero⟩
  have hwrap : ¬ b.reset.Wrapped := Nat.not_lt_zero b.capacity
  rw [if_neg hwrap]
  rfl

/-- The body of `resize` for a factor above 1; the new array is zeroed here as in `resize`. -/
def resizeTo (b : CircularBuffer) (newCap : Nat) : Option CircularBuffer := do
  let (data, _) ← b.read (min b.size newCap)
  some
    { capacity := newCap
      size := b.size
      r := 0
      w := b.size
      buf := memcpy (List.replicate newCap 0) 0 data }

/-- A larger array holds the same bytes, at its start. -/
theorem Shape.resizeTo (h : b.Shape) {newCap : Nat} (hgrow : b.size ≤ newCap) :
    ∃ b', b.resizeTo newCap = some b' ∧ b'.Shape ∧ b'.held = b.held ∧ b'.capacity = newCap ∧
      b'.size = b.size ∧ b'.r = 0 := by
  have hheld := h.length_held
  obtain ⟨rest, hread, -⟩ := h.read (Nat.le_refl b.size)
  rw [List.take_of_length_le (Nat.le_of_eq hheld)] at hread
  have hzero : (List.replicate newCap (0 : UInt8)).length = newCap := List.length_replicate
  have hroom : 0 + b.held.length ≤ (List.replicate newCap (0 : UInt8)).length := by
    rw [hzero, hheld]
    omega
  unfold CircularBuffer.resizeTo
  rw [Nat.min_eq_left hgrow, hread]
  refine ⟨_, rfl, ⟨?_, Nat.zero_le _, hgrow, ?_⟩, ?_, rfl, rfl, rfl⟩
  · exact (length_writeAt_within hroom).trans hzero
  · have hwrap : ¬ newCap < 0 + b.size := by omega
    simp only [Wrapped, hwrap, if_false]
    omega
  · have hring := ring_append (z := (0 : UInt8)) (s := List.replicate newCap 0)
      (r := 0) (n := 0) (d := b.held) (by omega)
    rw [ring_zero, List.nil_append, hheld] at hring
    simpa [CircularBuffer.held, memcpy] using hring

theorem Rep.resize (h : b.Rep) : ∃ b', b.resize = some b' ∧ b'.Rep ∧ b'.held = b.held ∧
    b.capacity < b'.capacity ∧ b'.size = b.size ∧ b'.r = 0 := by
  have hgrow := lt_scaledCapacity h.large
  have hlarge := h.large
  have hsize := h.size_le
  obtain ⟨b', hresize, hshape, hheld, hcap, hkeep, hr⟩ :=
    h.toShape.resizeTo (show b.size ≤ scaledCapacity b.capacity by omega)
  exact ⟨b', hresize, ⟨hshape, by omega⟩, hheld, by omega, hkeep, hr⟩

theorem Rep.makeRoom (h : b.Rep) {len fuel : Nat} (hfuel : len ≤ b.remainingSpace + fuel) :
    ∃ b', makeRoom len fuel b = some b' ∧ b'.Rep ∧ b'.held = b.held ∧ len ≤ b'.remainingSpace ∧
      (b' = b ∨ b'.r = 0) := by
  -- Every pass makes the array longer by a byte at least, so the fuel lasts.
  induction fuel generalizing b with
  | zero =>
      refine ⟨b, ?_, h, rfl, hfuel, .inl rfl⟩
      rw [CircularBuffer.makeRoom, if_neg (by omega)]
  | succ fuel ih =>
      rw [CircularBuffer.makeRoom]
      split
      · obtain ⟨b₁, hresize, hrep, hheld, hgrow, hsize, hzero⟩ := h.resize
        have hroom : b.remainingSpace < b₁.remainingSpace := by
          have := h.size_le
          unfold remainingSpace
          omega
        obtain ⟨b', hmake, hrep', hheld', hlen, hr⟩ := ih hrep (by omega)
        refine ⟨b', ?_, hrep', hheld'.trans hheld, hlen, .inr ?_⟩
        · rw [hresize]
          exact hmake
        · rcases hr with rfl | hr
          · exact hzero
          · exact hr
      · next hroom => exact ⟨b, rfl, h, rfl, by omega, .inl rfl⟩

theorem makeRoom_of_room {len fuel : Nat} (hroom : len ≤ b.remainingSpace) :
    CircularBuffer.makeRoom len fuel b = some b := by
  cases fuel <;> rw [CircularBuffer.makeRoom, if_neg (Nat.not_lt_of_le hroom)]

/-- Where room is left, no new array is taken. -/
theorem Rep.append_of_room (h : b.Rep) (hdata : data.length ≤ b.remainingSpace) :
    ∃ b', b.append data = some b' ∧ b'.held = b.held ++ data ∧ b'.size = b.size + data.length ∧
      b'.capacity = b.capacity ∧ b'.r = b.r := by
  obtain ⟨b', hwrite, hrep, hheld, hcap, hr⟩ := h.write hdata
  refine ⟨b', ?_, hheld, ?_, hcap, hr⟩
  · unfold CircularBuffer.append
    rw [makeRoom_of_room hdata]
    exact hwrite
  · rw [← hrep.length_held, hheld, List.length_append, h.length_held]

/-- Data is always accepted, and put behind what is held; where room is wanting, at the start of a new
array. -/
theorem Rep.append (h : b.Rep) (data : List UInt8) :
    ∃ b', b.append data = some b' ∧ b'.Rep ∧ b'.held = b.held ++ data ∧
      (data.length ≤ b.remainingSpace ∧ b'.r = b.r ∧ b'.capacity = b.capacity ∨
        b.remainingSpace < data.length ∧ b'.r = 0) := by
  obtain ⟨b₁, hmake, hrep, hheld, hroom, hr⟩ := h.makeRoom (Nat.le_add_left data.length _)
  obtain ⟨b', hwrite, hrep', hheld', hcap, hr'⟩ := hrep.write hroom
  refine ⟨b', ?_, hrep', by rw [hheld', hheld], ?_⟩
  · unfold CircularBuffer.append
    rw [hmake]
    exact hwrite
  · rcases Nat.lt_or_ge b.remainingSpace data.length with hlt | hle
    · refine .inr ⟨hlt, ?_⟩
      rcases hr with rfl | hr
      · exact absurd hroom (Nat.not_le_of_lt hlt)
      · exact hr'.trans hr
    · obtain rfl := Option.some.inj ((makeRoom_of_room hle).symm.trans hmake)
      exact .inl ⟨hle, hr', hcap⟩

/-! ## Reading up to a character -/

variable {c : UInt8}

/-- What is held, cut where the array ends. -/
theorem Shape.held_eq (h : b.Shape) :
    b.held = if b.Wrapped then b.buf.drop b.r ++ b.buf.take b.w else (b.buf.drop b.r).take (b.w - b.r) := by
  have hlen := h.length_eq
  have hr := h.r_le
  have hw := h.w_eq
  unfold held
  split
  · next hwrap =>
      rw [if_pos hwrap] at hw
      unfold Wrapped at hwrap
      rw [ring_of_lt (by omega) (by omega), hw, hlen]
  · next hwrap =>
      rw [if_neg hwrap] at hw
      unfold Wrapped at hwrap
      rw [ring_of_le (by omega), hw, Nat.add_sub_cancel_left]

theorem Shape.r_le_w (h : b.Shape) (hwrap : ¬ b.Wrapped) : b.r ≤ b.w ∧ b.w ≤ b.capacity := by
  have hw := h.w_eq
  rw [if_neg hwrap] at hw
  unfold Wrapped at hwrap
  omega

/-- A character is found where it is held, but in a wrapped buffer that is full. -/
theorem Shape.contains_iff (h : b.Shape) (hfull : b.Wrapped → b.size < b.capacity ∨ c ∉ b.held) :
    b.contains c = true ↔ c ∈ b.held := by
  have hheld := h.held_eq
  have hlen := h.length_eq
  unfold contains
  -- A wrapped buffer is searched in two parts, but not at all where the two ends meet, as in a full one.
  by_cases hwrap : b.Wrapped
  · rw [if_pos hwrap] at hheld
    have hw := h.w_eq
    rw [if_pos hwrap] at hw
    have hsize := h.size_le
    have hwrap' : b.capacity < b.r + b.size := hwrap
    have hall : (b.buf.drop b.r).take (b.capacity - b.r) = b.buf.drop b.r :=
      List.take_of_length_le (by simp [hlen])
    rw [if_neg (show ¬ b.r < b.w by omega), hall]
    split
    · rw [hheld, List.mem_append, Bool.or_eq_true, decide_eq_true_eq, decide_eq_true_eq]
    · next hne =>
        have hnot := (hfull hwrap).resolve_left (by omega)
        simp only [hnot, Bool.false_eq_true]
  · rw [if_neg hwrap] at hheld
    have hrw := h.r_le_w hwrap
    split
    · rw [hheld, decide_eq_true_eq]
    · next hne =>
        have hempty : b.w - b.r = 0 := by omega
        rw [if_neg (show ¬ b.w < b.r by omega), hheld, hempty, List.take_zero]
        simp only [Bool.false_eq_true, List.not_mem_nil]

/-- A buffer whose next line lies in one piece, or goes on at the start of the array. -/
def Readable (b : CircularBuffer) : Prop :=
  b.Wrapped → 10 ∉ b.held.take (b.capacity - b.r) ∧
    (b.size < b.capacity ∨ (10 ∉ b.held ∧ 32 ∉ b.held))

theorem Shape.haveLine_iff (h : b.Shape) (hread : b.Readable) : b.haveLine = true ↔ 10 ∈ b.held :=
  h.contains_iff fun hwrap => (hread hwrap).2.imp_right And.left

theorem Shape.haveWord_iff (h : b.Shape) (hread : b.Readable) : b.haveWord = true ↔ 32 ∈ b.held :=
  h.contains_iff fun hwrap => (hread hwrap).2.imp_right And.right

/-- The line that a buffer which is not wrapped starts with. -/
theorem Shape.readUntil_straight (h : b.Shape) (hwrap : ¬ b.Wrapped) {line rest : List UInt8}
    (hline : c ∉ line) (hheld : b.held = line ++ c :: rest) :
    ∃ b', b.readUntil c = (line, b') ∧ b'.Shape ∧ ¬ b'.Wrapped ∧ b'.held = rest ∧
      b'.r = b.r + line.length + 1 ∧ b'.capacity = b.capacity := by
  have hsize := h.length_held
  rw [hheld, List.length_append, List.length_cons] at hsize
  have hrw := h.r_le_w hwrap
  have hw := h.w_eq
  rw [if_neg hwrap] at hw
  have hcells := h.held_eq
  rw [if_neg hwrap, hheld] at hcells
  have hpart : ((b.buf.drop b.r).take (b.w - b.r)).takeWhile (fun x => x ≠ c) = line := by
    rw [← hcells, List.takeWhile_append_of_pos (fun x hx => by
      simpa using fun heq : x = c => hline (heq ▸ hx))]
    simp
  have hsum : b.r + line.length + 1 + (b.size - line.length - 1) = b.r + b.size := by omega
  have hread : b.readUntil c =
      (line, { b with r := b.r + line.length + 1, size := b.size - line.length - 1 }) := by
    unfold readUntil
    rw [if_neg (show ¬ b.w < b.r by omega)]
    dsimp only [readTo]
    rw [hpart, if_pos (show 0 < b.size - line.length by omega)]
    rfl
  unfold Wrapped at hwrap
  have hwrap' : ¬ ({ b with r := b.r + line.length + 1, size := b.size - line.length - 1 } :
      CircularBuffer).Wrapped := by
    unfold Wrapped
    dsimp only
    omega
  refine ⟨_, hread, ⟨h.length_eq, ?_, ?_, ?_⟩, hwrap', ?_, rfl, rfl⟩
  · dsimp only
    omega
  · have := h.size_le
    dsimp only
    omega
  · rw [if_neg hwrap']
    dsimp only
    omega
  · have hdrop := drop_ring (n := b.size) (show b.r + (line.length + 1) ≤ b.buf.length by
      have := h.length_eq
      omega)
    show ring b.buf (b.r + line.length + 1) (b.size - line.length - 1) = rest
    rw [Nat.add_assoc, Nat.sub_sub, ← hdrop]
    show b.held.drop (line.length + 1) = rest
    rw [hheld, List.drop_append]
    simp

/-- A wrapped buffer, once what comes before the end of the array is read. -/
def atStart (b : CircularBuffer) : CircularBuffer :=
  { b with r := 0, size := b.size - (b.capacity - b.r) }

theorem Shape.atStart_spec (h : b.Shape) (hwrap : b.Wrapped) :
    b.atStart.Shape ∧ ¬ b.atStart.Wrapped ∧ b.atStart.held = b.buf.take b.w := by
  have hw := h.w_eq
  rw [if_pos hwrap] at hw
  have hsize := h.size_le
  have hr := h.r_le
  have hlen := h.length_eq
  unfold Wrapped at hwrap
  have hwrap' : ¬ b.atStart.Wrapped := by
    unfold Wrapped atStart
    dsimp only
    omega
  have hshape : b.atStart.Shape := by
    refine ⟨hlen, Nat.zero_le _, ?_, ?_⟩
    · unfold atStart
      dsimp only
      omega
    · rw [if_neg hwrap']
      unfold atStart
      dsimp only
      omega
  refine ⟨hshape, hwrap', ?_⟩
  have hheld := hshape.held_eq
  rw [if_neg hwrap'] at hheld
  exact hheld

/-- Where the character is not found before the end of the array, the reading goes on at its start. -/
theorem Shape.readUntil_atStart (h : b.Shape) (hwrap : b.Wrapped) (hfull : b.size < b.capacity)
    (hfirst : c ∉ b.held.take (b.capacity - b.r)) :
    b.readUntil c = (b.buf.drop b.r ++ (b.atStart.readUntil c).1, (b.atStart.readUntil c).2) := by
  have hlen := h.length_eq
  have hw := h.w_eq
  rw [if_pos hwrap] at hw
  have hcells := h.held_eq
  rw [if_pos hwrap] at hcells
  have hend : (b.buf.drop b.r).length = b.capacity - b.r := by rw [List.length_drop, hlen]
  have hwrap' : b.capacity < b.r + b.size := hwrap
  rw [hcells, List.take_append_of_le_length (by omega), List.take_of_length_le (by omega)] at hfirst
  have hall : ((b.buf.drop b.r).take (b.capacity - b.r)).takeWhile (fun x => x ≠ c) = b.buf.drop b.r := by
    rw [List.take_of_length_le (by omega), List.takeWhile_eq_self_iff]
    intro x hx
    simpa using fun heq : x = c => hfirst (heq ▸ hx)
  unfold readUntil
  rw [if_pos (show b.w < b.r by omega), if_neg (show ¬ b.atStart.w < b.atStart.r from Nat.not_lt_zero _)]
  dsimp only [readTo]
  rw [hall, hend]
  rfl

/-- A line of a wrapped buffer that goes on at the start of the array. -/
theorem Shape.readUntil_wrapped (h : b.Shape) (hwrap : b.Wrapped) (hfull : b.size < b.capacity)
    (hfirst : c ∉ b.held.take (b.capacity - b.r)) {line rest : List UInt8} (hline : c ∉ line)
    (hheld : b.held = line ++ c :: rest) :
    ∃ b', b.readUntil c = (line, b') ∧ b'.Shape ∧ ¬ b'.Wrapped ∧ b'.held = rest ∧
      b'.capacity = b.capacity := by
  have hcells := h.held_eq
  rw [if_pos hwrap] at hcells
  have hend : (b.buf.drop b.r).length = b.capacity - b.r := by rw [List.length_drop, h.length_eq]
  obtain ⟨line', rfl, hstart⟩ : ∃ line', line = b.buf.drop b.r ++ line' ∧
      b.buf.take b.w = line' ++ c :: rest := by
    rcases List.append_eq_append_iff.1 (hcells.symm.trans hheld) with ⟨as, hl, ht⟩ | ⟨cs, hd, ht⟩
    · exact ⟨as, hl, ht⟩
    · cases cs with
      | nil => exact ⟨[], by simpa using hd.symm, by simpa using ht.symm⟩
      | cons x cs =>
          obtain ⟨rfl, -⟩ := List.cons.inj ht
          refine absurd ?_ hfirst
          rw [hcells, List.take_append_of_le_length (by omega), List.take_of_length_le (by omega), hd]
          simp
  obtain ⟨hshape, hwrap₁, hheld₁⟩ := h.atStart_spec hwrap
  rw [List.mem_append, not_or] at hline
  obtain ⟨b', hread, hshape', hwrap₂, hrest, -, hcap⟩ :=
    hshape.readUntil_straight hwrap₁ hline.2 (hheld₁.trans hstart)
  refine ⟨b', ?_, hshape', hwrap₂, hrest, hcap⟩
  rw [h.readUntil_atStart hwrap hfull hfirst, hread]

/-- The line a readable buffer starts with. -/
theorem Rep.readUntil_line (h : b.Rep) (hread : b.Readable) {line rest : List UInt8} (hline : 10 ∉ line)
    (hheld : b.held = line ++ 10 :: rest) :
    ∃ b', b.readUntil 10 = (line, b') ∧ b'.Rep ∧ ¬ b'.Wrapped ∧ b'.held = rest := by
  by_cases hwrap : b.Wrapped
  · obtain ⟨hfirst, hfull⟩ := hread hwrap
    have hmem : (10 : UInt8) ∈ b.held := by
      rw [hheld]
      simp
    obtain ⟨b', hres, hshape, hwrap', hrest, hcap⟩ :=
      h.readUntil_wrapped hwrap (hfull.resolve_right fun hnot => hnot.1 hmem) hfirst hline hheld
    exact ⟨b', hres, ⟨hshape, hcap ▸ h.large⟩, hwrap', hrest⟩
  · obtain ⟨b', hres, hshape, hwrap', hrest, -, hcap⟩ := h.readUntil_straight hwrap hline hheld
    exact ⟨b', hres, ⟨hshape, hcap ▸ h.large⟩, hwrap', hrest⟩

/-! ## Writing to a descriptor -/

variable {first second : SysWrite}

/-- The outcomes the writes of `writeToFd` can have. -/
def Outcomes (b : CircularBuffer) (first second : SysWrite) : Prop :=
  if b.Wrapped then
    first.Possible (b.capacity - b.r) ∧
      (first = .accepts (b.capacity - b.r) → second.Possible (b.size - (b.capacity - b.r)))
  else first.Possible b.size

instance (b : CircularBuffer) (first second : SysWrite) : Decidable (b.Outcomes first second) := by
  unfold Outcomes
  infer_instance

/-- Every count fits an `int`, and a first write that takes all up to the end of the array is followed by
one that takes all the rest. -/
def WritesWhole (b : CircularBuffer) (first second : SysWrite) : Prop :=
  first.Small ∧ (b.Wrapped → first = .accepts (b.capacity - b.r) →
    second.Small ∧ second = .accepts (b.size - (b.capacity - b.r)))

theorem writeToFd_straight (hfits : b.r + b.size ≤ b.capacity) :
    b.writeToFd first second =
      if first.ret ≤ 0 then (first.ret, first.taken ((b.buf.drop b.r).take b.size), b)
      else if first.ret.toNat < b.size then
        (first.ret, first.taken ((b.buf.drop b.r).take b.size),
          { b with r := b.r + first.ret.toNat, size := b.size - first.ret.toNat })
      else (toInt32 b.size, first.taken ((b.buf.drop b.r).take b.size), { b with size := 0, r := 0, w := 0 }) :=
  if_pos hfits

theorem writeToFd_wrapped (hwrap : b.Wrapped) :
    b.writeToFd first second =
      if first.ret ≤ 0 then (first.ret, first.taken ((b.buf.drop b.r).take (b.capacity - b.r)), b)
      else if first.ret.toNat < b.capacity - b.r then
        (first.ret, first.taken ((b.buf.drop b.r).take (b.capacity - b.r)),
          { b with r := b.r + first.ret.toNat, size := b.size - first.ret.toNat })
      else if second.ret ≤ 0 then
        (second.ret, first.taken ((b.buf.drop b.r).take (b.capacity - b.r)) ++
          second.taken (b.buf.take (b.size - (b.capacity - b.r))), b)
      else if second.ret.toNat < b.size - (b.capacity - b.r) then
        (second.ret, first.taken ((b.buf.drop b.r).take (b.capacity - b.r)) ++
          second.taken (b.buf.take (b.size - (b.capacity - b.r))),
          { b with r := second.ret.toNat, size := b.size - second.ret.toNat })
      else
        (toInt32 b.size, first.taken ((b.buf.drop b.r).take (b.capacity - b.r)) ++
          second.taken (b.buf.take (b.size - (b.capacity - b.r))), { b with size := 0, r := 0, w := 0 }) :=
  if_neg (Nat.not_le_of_lt hwrap)

theorem Rep.advance (h : b.Rep) {k : Nat} (hfits : b.r + k ≤ b.capacity) (hk : k < b.size) :
    ({ b with r := b.r + k, size := b.size - k } : CircularBuffer).Rep ∧
      (b.buf.drop b.r).take k ++ ({ b with r := b.r + k, size := b.size - k } : CircularBuffer).held =
        b.held := by
  have hlen := h.length_eq
  have hsize := h.size_le
  refine ⟨⟨⟨hlen, hfits, ?_, ?_⟩, h.large⟩, ?_⟩
  · dsimp only
    omega
  · have hsum : b.r + k + (b.size - k) = b.r + b.size := by omega
    have hiff : ({ b with r := b.r + k, size := b.size - k } : CircularBuffer).Wrapped ↔ b.Wrapped := by
      unfold Wrapped
      dsimp only
      rw [hsum]
    have hw := h.w_eq
    by_cases hwrap : b.Wrapped
    · rw [if_pos hwrap] at hw
      rw [if_pos (hiff.2 hwrap)]
      dsimp only
      omega
    · rw [if_neg hwrap] at hw
      rw [if_neg (fun hw' => hwrap (hiff.1 hw'))]
      dsimp only
      omega
  · have htake : (b.buf.drop b.r).take k = b.held.take k := by
      rw [held, ring, List.take_take, Nat.min_eq_left (by omega), List.take_append_of_le_length]
      rw [List.length_drop]
      omega
    have hdrop : b.held.drop k = ring b.buf (b.r + k) (b.size - k) := drop_ring (by omega)
    show _ ++ ring b.buf (b.r + k) (b.size - k) = b.held
    rw [htake, ← hdrop, List.take_append_drop]

theorem Rep.emptied (h : b.Rep) :
    ({ b with size := 0, r := 0, w := 0 } : CircularBuffer).Rep ∧
      ({ b with size := 0, r := 0, w := 0 } : CircularBuffer).held = [] := by
  obtain ⟨hshape, hheld⟩ := h.toShape.reset
  exact ⟨⟨hshape, h.large⟩, hheld⟩

/-- What the descriptor takes is taken off the buffer. -/
theorem Rep.writeToFd_whole (h : b.Rep) (hr : b.r < b.capacity) (hposs : b.Outcomes first second)
    (hwhole : b.WritesWhole first second) :
    (b.writeToFd first second).2.2.Rep ∧
      (b.writeToFd first second).2.2.r < (b.writeToFd first second).2.2.capacity ∧
      (b.writeToFd first second).2.1 ++ (b.writeToFd first second).2.2.held = b.held := by
  have hlen := h.length_eq
  have hsize := h.size_le
  obtain ⟨hsmall, hsecond⟩ := hwhole
  cases first with
  | again =>
      have hsame : b.writeToFd .again second = (-1, [], b) := by
        unfold writeToFd
        split <;> rfl
      rw [hsame]
      exact ⟨h, hr, rfl⟩
  | accepts k =>
      have hret : (SysWrite.accepts k).ret = k := SysWrite.ret_accepts hsmall
      unfold Outcomes at hposs
      -- A wrapped buffer takes two writes; the second is made if the first one took all of its part.
      by_cases hwrap : b.Wrapped
      · rw [if_pos hwrap] at hposs
        obtain ⟨⟨hk0, hk⟩, -⟩ := hposs
        have hwrap' : b.capacity < b.r + b.size := hwrap
        rw [writeToFd_wrapped hwrap, hret, Int.toNat_natCast, if_neg (show ¬ (k : Int) ≤ 0 by omega)]
        by_cases hcut : k < b.capacity - b.r
        · rw [if_pos hcut]
          obtain ⟨hrep, hheld⟩ := h.advance (k := k) (by omega) (by omega)
          refine ⟨hrep, ?_, ?_⟩
          · dsimp only
            omega
          · rw [SysWrite.taken, List.take_take, Nat.min_eq_left hk]
            exact hheld
        · obtain rfl : k = b.capacity - b.r := by omega
          obtain ⟨hsmall₂, rfl⟩ := hsecond hwrap rfl
          rw [if_neg hcut, SysWrite.ret_accepts hsmall₂, Int.toNat_natCast,
            if_neg (show ¬ ((b.size - (b.capacity - b.r) : Nat) : Int) ≤ 0 by omega),
            if_neg (Nat.lt_irrefl _)]
          obtain ⟨hrep, hheld⟩ := h.emptied
          refine ⟨hrep, by have := h.large; dsimp only; omega, ?_⟩
          have hfirst : (b.buf.drop b.r).take (b.capacity - b.r) = b.buf.drop b.r :=
            List.take_of_length_le (by simp [hlen])
          have hrest : b.size - (b.capacity - b.r) = b.r + b.size - b.buf.length := by omega
          rw [hheld, List.append_nil, held, ring_of_lt (by omega) (by omega), SysWrite.taken, SysWrite.taken,
            hfirst, List.take_of_length_le (by simp [hlen]), List.take_take, Nat.min_self, hrest]
      · rw [if_neg hwrap] at hposs
        obtain ⟨hk0, hk⟩ := hposs
        have hfits : b.r + b.size ≤ b.capacity := Nat.le_of_not_lt hwrap
        rw [writeToFd_straight hfits, hret, Int.toNat_natCast, if_neg (show ¬ (k : Int) ≤ 0 by omega)]
        by_cases hall : k < b.size
        · rw [if_pos hall]
          obtain ⟨hrep, hheld⟩ := h.advance (k := k) (by omega) hall
          refine ⟨hrep, ?_, ?_⟩
          · dsimp only
            omega
          · rw [SysWrite.taken, List.take_take, Nat.min_eq_left hk]
            exact hheld
        · obtain rfl : k = b.size := by omega
          rw [if_neg hall]
          obtain ⟨hrep, hheld⟩ := h.emptied
          refine ⟨hrep, by have := h.large; dsimp only; omega, ?_⟩
          rw [hheld, List.append_nil, held, ring_of_le (by omega), SysWrite.taken, List.take_take,
            Nat.min_self]

/-- Otherwise the bytes that are left are miscounted. -/
theorem Rep.writeToFd_part (h : b.Rep) (hposs : b.Outcomes first second)
    (hpart : ¬ b.WritesWhole first second) :
    (b.writeToFd first second).2.1.length + (b.writeToFd first second).2.2.size ≠ b.size := by
  have hlen := h.length_eq
  have hsize := h.size_le
  have hr := h.r_le
  cases first with
  | again =>
      refine absurd ⟨trivial, fun _ h => ?_⟩ hpart
      cases h
  | accepts k =>
      unfold Outcomes at hposs
      by_cases hwrap : b.Wrapped
      · rw [if_pos hwrap] at hposs
        obtain ⟨⟨hk0, hk⟩, hposs₂⟩ := hposs
        have hwrap' : b.capacity < b.r + b.size := hwrap
        have hout : ((SysWrite.accepts k).taken ((b.buf.drop b.r).take (b.capacity - b.r))).length = k :=
          SysWrite.length_taken (by rw [List.length_take, List.length_drop]; omega)
        rw [writeToFd_wrapped hwrap]
        by_cases hsmall : (SysWrite.accepts k).Small
        · have hall : SysWrite.accepts k = .accepts (b.capacity - b.r) := by
            by_contra hne
            exact hpart ⟨hsmall, fun _ h => absurd h hne⟩
          obtain rfl : k = b.capacity - b.r := by injection hall
          have hposs₂ := hposs₂ rfl
          have hpart₂ : ¬ (second.Small ∧ second = .accepts (b.size - (b.capacity - b.r))) :=
            fun h => hpart ⟨hsmall, fun _ _ => h⟩
          rw [SysWrite.ret_accepts hsmall, Int.toNat_natCast,
            if_neg (show ¬ ((b.capacity - b.r : Nat) : Int) ≤ 0 by omega), if_neg (Nat.lt_irrefl _)]
          cases second with
          | again =>
              rw [if_pos SysWrite.ret_again]
              dsimp only
              rw [List.length_append, hout, SysWrite.taken_again, List.length_nil]
              omega
          | accepts k₂ =>
              obtain ⟨hk₂0, hk₂⟩ := hposs₂
              have hout₂ : ((SysWrite.accepts k₂).taken
                  (b.buf.take (b.size - (b.capacity - b.r)))).length = k₂ :=
                SysWrite.length_taken (by rw [List.length_take]; omega)
              have hret : (SysWrite.accepts k₂).ret ≤ k₂ ∧
                  (SysWrite.accepts k₂).ret < (b.size - (b.capacity - b.r) : Nat) := by
                by_cases hsmall₂ : (SysWrite.accepts k₂).Small
                · rw [SysWrite.ret_accepts hsmall₂]
                  have hne : k₂ ≠ b.size - (b.capacity - b.r) := fun heq => hpart₂ ⟨hsmall₂, by rw [heq]⟩
                  omega
                · have hlt := SysWrite.ret_lt hsmall₂
                  omega
              generalize (SysWrite.accepts k₂).ret = ret at hret ⊢
              rw [if_pos (show ret.toNat < b.size - (b.capacity - b.r) by omega)]
              split <;> (dsimp only; rw [List.length_append, hout, hout₂]; omega)
        · have hret := SysWrite.ret_lt hsmall
          generalize (SysWrite.accepts k).ret = ret at hret ⊢
          rw [if_pos (show ret.toNat < b.capacity - b.r by omega)]
          split <;> (dsimp only; rw [hout]; omega)
      · rw [if_neg hwrap] at hposs
        obtain ⟨hk0, hk⟩ := hposs
        have hfits : b.r + b.size ≤ b.capacity := Nat.le_of_not_lt hwrap
        have hout : ((SysWrite.accepts k).taken ((b.buf.drop b.r).take b.size)).length = k :=
          SysWrite.length_taken (by rw [List.length_take, List.length_drop]; omega)
        have hret := SysWrite.ret_lt fun hsmall => hpart ⟨hsmall, fun h => absurd h hwrap⟩
        rw [writeToFd_straight hfits]
        generalize (SysWrite.accepts k).ret = ret at hret ⊢
        rw [if_pos (show ret.toNat < b.size by omega)]
        split <;> (dsimp only; rw [hout]; omega)

end CircularBuffer

end CppTracker
end Raiezau
