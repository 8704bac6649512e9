import Raiezau.CTracker.Input
import Raiezau.CUtil.StringArray
import Raiezau.Machine.Fold

/-!
# InputBuffer — the array a request is read into

`socket_read_string` with the array it allocates.  The growth of the array goes by the number of characters read,
`strcat` by the string in it: `Reading` keeps both and `InputBuffer` has the array.  The loop that strips newlines
starts at the number of characters, wherever the string ends.
-/

namespace Raiezau
namespace CTracker

open CUtil Machine Memory

/-! ## Model -/

/-- The variables of the loop. -/
structure InputBuffer where
  str : Block Char
  strSize : Nat
  strBufsize : Nat
  deriving DecidableEq, Repr

namespace InputBuffer

/-- `calloc(HEURISTIC_SIZE, 1)`. -/
def start : InputBuffer :=
  { str := ⟨List.replicate heuristicSize (some '\x00')⟩, strSize := 0, strBufsize := heuristicSize }

/-- A pass of the loop with what `read` returned, in `buf` up to a NUL behind it.  The sizes are `int`s. -/
def pass (x : InputBuffer) (buf : List Char) : Option InputBuffer :=
  if x.strBufsize < x.strSize + buf.length then
    if 2 * x.strBufsize < 2 ^ 31 then do
      let str ← strcat (x.str.realloc (2 * x.strBufsize)) (asCString buf)
      some { str := str, strSize := x.strSize + buf.length, strBufsize := 2 * x.strBufsize }
    else none
  else do
    let str ← strcat x.str (asCString buf)
    some { x with str := str, strSize := x.strSize + buf.length }

def passes (reads : List (List Char)) : Option InputBuffer := reads.foldlM pass start

/-- The loop that removes newlines: the positions it looks at, and what it leaves. -/
def stripLoop : Nat → Block Char → Option (List Nat × Block Char × Nat)
  | 0, str => some ([], str, 0)
  | strSize + 1, str => do
      let c ← str.load strSize
      if c = '\n' then do
        let str ← str.store strSize '\x00'
        let (seen, str, size) ← stripLoop strSize str
        some (strSize :: seen, str, size)
      else some ([strSize], str, strSize + 1)

/-- After every pass the string and its NUL are in the array, and newlines are looked for in them. -/
def Safe (reads : List (List Char)) : Prop :=
  (∀ done, done <+: reads → ∃ x str, passes done = some x ∧ stringAt x.str = some str ∧
      x.str.size = x.strBufsize ∧ str.length + 1 ≤ x.strBufsize) ∧
    ∃ x str seen rest, passes reads = some x ∧ stringAt x.str = some str ∧
      stripLoop x.strSize x.str = some (seen, rest) ∧ ∀ i ∈ seen, i ≤ str.length

end InputBuffer

/-! ## The reads of one request -/

/-- What `read` returns for one request: it ends with the last read, and with no read before that. -/
structure IsRequest (front : List (List Char)) (last : List Char) : Prop where
  lengths : ∀ buf ∈ front ++ [last], 1 ≤ buf.length ∧ buf.length ≤ 1000
  goesOn : ∀ buf ∈ front, endsRequest buf = false
  ends : endsRequest last = true

/-- The only NUL may be the very last character, and before that no pass fills the array exactly. -/
def SparesNul (front : List (List Char)) (last : List Char) : Prop :=
  (∀ buf ∈ front, '\x00' ∉ buf) ∧ '\x00' ∉ last.dropLast ∧
    (front ++ [last]).flatten.length ≤ 3072 * 2 ^ 19 ∧
    ∀ done, done <+: front ++ [last] → '\x00' ∉ done.flatten → ∀ k, done.flatten.length ≠ 3072 * 2 ^ k

variable {x x' : InputBuffer} {r r' : Reading} {buf last : List Char} {front done reads : List (List Char)}

/-! ## The array holds the string -/

/-- The array has the string, and as many characters as `str_bufsize` says. -/
structure InputBuffer.Holds (x : InputBuffer) (r : Reading) : Prop where
  string : stringAt x.str = some r.str
  size : x.str.size = x.strBufsize
  strSize_eq : x.strSize = r.strSize
  strBufsize_eq : x.strBufsize = r.strBufsize
  isInt : x.strBufsize < 2 ^ 31

theorem InputBuffer.holds_start : InputBuffer.start.Holds .start where
  string := rfl
  size := List.length_replicate
  strSize_eq := rfl
  strBufsize_eq := rfl
  isInt := by decide

/-- A pass goes through exactly if `Reading.add` does. -/
theorem InputBuffer.Holds.pass (h : x.Holds r) (buf : List Char) :
    match r.add buf with
    | some r' => ∃ x', x.pass buf = some x' ∧ x'.Holds r'
    | none => x.pass buf = none := by
  obtain ⟨hstring, hsize, hstrSize, hbufsize, hint⟩ := h
  have hnul := not_mem_asCString buf
  have hlen : (r.str ++ asCString buf).length = r.str.length + (asCString buf).length := List.length_append
  unfold Reading.add InputBuffer.pass
  rw [← hstrSize, ← hbufsize]
  by_cases hgrow : x.strBufsize < x.strSize + buf.length
  · simp only [if_pos hgrow]
    have hle : x.str.size ≤ 2 * x.strBufsize := by omega
    have hcat := strcat_spec (stringAt_realloc hstring hle) hnul
    rw [Block.size_realloc hle] at hcat
    by_cases hint' : 2 * x.strBufsize < 2 ^ 31
    · rw [if_pos hint']
      by_cases hroom : r.str.length + (asCString buf).length + 1 ≤ 2 * x.strBufsize
      · rw [if_pos hroom] at hcat
        obtain ⟨str, hcat, hsize', hstring'⟩ := hcat
        rw [if_pos ⟨hint', hlen ▸ hroom⟩, hcat]
        exact ⟨_, rfl, hstring', hsize', rfl, rfl, hint'⟩
      · rw [if_neg hroom] at hcat
        rw [if_neg fun hboth => hroom (hlen ▸ hboth.2), hcat]
        rfl
    · rw [if_neg hint', if_neg fun hboth => hint' hboth.1]
  · simp only [if_neg hgrow]
    have hcat := strcat_spec hstring hnul
    rw [hsize] at hcat
    by_cases hroom : r.str.length + (asCString buf).length + 1 ≤ x.strBufsize
    · rw [if_pos hroom] at hcat
      obtain ⟨str, hcat, hsize', hstring'⟩ := hcat
      rw [if_pos ⟨hint, hlen ▸ hroom⟩, hcat]
      exact ⟨_, rfl, hstring', hsize', rfl, rfl, hint⟩
    · rw [if_neg hroom] at hcat
      rw [if_neg fun hboth => hroom (hlen ▸ hboth.2), hcat]
      rfl

/-! ## Characters behind a NUL -/

theorem length_asCString_le (buf : List Char) : (asCString buf).length ≤ buf.length :=
  (List.takeWhile_prefix _).length_le

theorem not_mem_of_length_le {buf : List Char} (h : buf.length ≤ (asCString buf).length) : '\x00' ∉ buf := by
  have hself : asCString buf = buf :=
    (List.takeWhile_prefix _).eq_of_length (Nat.le_antisymm (length_asCString_le buf) h)
  exact hself ▸ not_mem_asCString buf

theorem length_flatMap_le (reads : List (List Char)) :
    (reads.flatMap asCString).length ≤ reads.flatten.length := by
  induction reads with
  | nil => exact Nat.le_refl _
  | cons buf reads ih =>
      rw [List.flatMap_cons, List.flatten_cons, List.length_append, List.length_append]
      exact Nat.add_le_add (length_asCString_le buf) ih

/-- At most one character of a read is lost if its NUL is its last one. -/
theorem not_mem_dropLast_iff {buf : List Char} :
    '\x00' ∉ buf.dropLast ↔ buf.length ≤ (asCString buf).length + 1 := by
  rcases List.eq_nil_or_concat buf with rfl | ⟨front, c, rfl⟩
  · simp
  rw [List.concat_eq_append, List.dropLast_concat, List.length_append, List.length_singleton]
  constructor
  · intro hnul
    rw [asCString_append hnul, List.length_append]
    omega
  · intro hle hnul
    rw [asCString_append_of_mem hnul] at hle
    exact not_mem_of_length_le (Nat.le_of_succ_le_succ hle) hnul

/-- Nothing is lost exactly if there is no NUL. -/
theorem length_flatMap_eq_iff : (reads.flatMap asCString).length = reads.flatten.length ↔ '\x00' ∉ reads.flatten := by
  induction reads with
  | nil => simp
  | cons buf reads ih =>
      have hle := length_asCString_le buf
      have hle' := length_flatMap_le reads
      rw [List.flatMap_cons, List.flatten_cons, List.length_append, List.length_append, List.mem_append, not_or,
        ← ih]
      constructor
      · intro heq
        exact ⟨not_mem_of_length_le (by omega), by omega⟩
      · rintro ⟨hnul, heq⟩
        rw [asCString_eq_self hnul, heq]

theorem length_le_of_mem (h : reads.flatten.length ≤ (reads.flatMap asCString).length + 1) (hbuf : buf ∈ reads) :
    buf.length ≤ (asCString buf).length + 1 := by
  induction reads with
  | nil => cases hbuf
  | cons b reads ih =>
      have hle := length_asCString_le b
      have hle' := length_flatMap_le reads
      rw [List.flatMap_cons, List.flatten_cons, List.length_append, List.length_append] at h
      rcases List.mem_cons.1 hbuf with rfl | hbuf
      · omega
      · exact ih (by omega) hbuf

/-- The loop that strips newlines starts in the string exactly if the only NUL is the last character. -/
theorem IsRequest.length_le_iff (h : IsRequest front last) :
    (front ++ [last]).flatten.length ≤ ((front ++ [last]).flatMap asCString).length + 1 ↔
      (∀ buf ∈ front, '\x00' ∉ buf) ∧ '\x00' ∉ last.dropLast := by
  constructor
  · intro hle
    have hlast := fun {buf} (hbuf : buf ∈ front ++ [last]) => not_mem_dropLast_iff.2 (length_le_of_mem hle hbuf)
    refine ⟨fun buf hbuf hnul => ?_, hlast (List.mem_append_right _ (List.mem_singleton_self _))⟩
    have hend : buf.getLast? ≠ some '\x00' := fun hend => by
      have := h.goesOn buf hbuf
      simp [endsRequest, hend] at this
    exact hlast (List.mem_append_left _ hbuf)
      (List.mem_dropLast_of_mem_of_ne_getLast? hnul (Ne.symm hend))
  · rintro ⟨hfront, hlast⟩
    have heq := length_flatMap_eq_iff.2 fun hnul : '\x00' ∈ front.flatten => by
      obtain ⟨buf, hbuf, hnul⟩ := List.mem_flatten.1 hnul
      exact hfront buf hbuf hnul
    have hle := not_mem_dropLast_iff.1 hlast
    rw [List.flatten_append, List.flatMap_append, List.length_append, List.length_append, List.flatten_singleton,
      List.flatMap_singleton]
    omega

/-! ## The passes -/

/-- The counts after the reads. -/
structure Reading.Counts (r : Reading) (done : List (List Char)) : Prop where
  str_eq : r.str = done.flatMap asCString
  strSize_eq : r.strSize = done.flatten.length
  bufsize : ∃ k ≤ 19, r.strBufsize = 3072 * 2 ^ k ∧ (k = 0 ∨ 3072 * 2 ^ k < 2 * done.flatten.length)
  le_bufsize : done.flatten.length ≤ r.strBufsize

/-- The string of these reads and its NUL have room in an array whose size is an `int`. -/
def HasRoom (done : List (List Char)) : Prop :=
  done.flatten.length ≤ 3072 * 2 ^ 19 ∧ ('\x00' ∉ done.flatten → ∀ k, done.flatten.length ≠ 3072 * 2 ^ k)

theorem Reading.counts_start : Reading.start.Counts [] where
  str_eq := rfl
  strSize_eq := rfl
  bufsize := ⟨0, Nat.zero_le _, rfl, .inl rfl⟩
  le_bufsize := Nat.zero_le _

/-- The size that the array has for so many characters is the least that is enough. -/
theorem hasRoom_iff {k : Nat} (hk : k ≤ 19) (hle : done.flatten.length ≤ 3072 * 2 ^ k)
    (hleast : k = 0 ∨ 3072 * 2 ^ k < 2 * done.flatten.length) :
    HasRoom done ↔ (done.flatMap asCString).length + 1 ≤ 3072 * 2 ^ k := by
  have hpow : 2 ^ k ≤ 2 ^ 19 := Nat.pow_le_pow_right (by decide) hk
  have hstr := length_flatMap_le done
  constructor
  · rintro ⟨-, hne⟩
    by_contra hnot
    have heq : (done.flatMap asCString).length = done.flatten.length := by omega
    exact hne (length_flatMap_eq_iff.1 heq) k (by omega)
  · intro hroom
    refine ⟨by omega, fun hnul j hj => ?_⟩
    rw [length_flatMap_eq_iff.2 hnul] at hroom
    have hlt : 2 ^ j < 2 ^ k := by omega
    have hjk : j < k := (Nat.pow_lt_pow_iff_right (by decide)).1 hlt
    have hdouble : 2 ^ (j + 1) ≤ 2 ^ k := Nat.pow_le_pow_right (by decide) hjk
    rw [Nat.pow_succ] at hdouble
    rcases hleast with rfl | hleast
    · exact absurd hjk (Nat.not_lt_zero j)
    · omega

theorem Reading.Counts.add (h : r.Counts done) (hlen : buf.length ≤ 1000) :
    (HasRoom (done ++ [buf]) → ∃ r', r.add buf = some r' ∧ r'.Counts (done ++ [buf])) ∧
      (¬ HasRoom (done ++ [buf]) → r.add buf = none) := by
  obtain ⟨hstr, hsize, ⟨k, hk, hbuf, hleast⟩, hle⟩ := h
  have hflat : (done ++ [buf]).flatten.length = done.flatten.length + buf.length := by simp
  have hmap : (done ++ [buf]).flatMap asCString = done.flatMap asCString ++ asCString buf := by simp
  have hpos : 1 ≤ 2 ^ k := Nat.one_le_two_pow
  unfold Reading.add
  rw [hstr, hsize, hbuf, ← hmap, ← hflat]
  by_cases hgrow : 3072 * 2 ^ k < (done ++ [buf]).flatten.length
  · have hdouble : 2 * (3072 * 2 ^ k) = 3072 * 2 ^ (k + 1) := by
      rw [Nat.pow_succ]
      omega
    simp only [if_pos hgrow, hdouble]
    by_cases hk' : k + 1 ≤ 19
    · have hpow : 2 ^ (k + 1) ≤ 2 ^ 19 := Nat.pow_le_pow_right (by decide) hk'
      have hiff := hasRoom_iff hk' (show (done ++ [buf]).flatten.length ≤ _ by omega) (.inr (by omega))
      refine ⟨fun hroom => ?_, fun hnot => if_neg fun hboth => hnot (hiff.2 hboth.2)⟩
      exact ⟨_, if_pos ⟨by omega, hiff.1 hroom⟩, rfl, rfl, ⟨k + 1, hk', rfl, .inr (by omega)⟩,
        show (done ++ [buf]).flatten.length ≤ 3072 * 2 ^ (k + 1) by omega⟩
    · obtain rfl : k = 19 := by omega
      refine ⟨fun hroom => absurd hroom.1 (by omega), fun _ => if_neg fun hboth => ?_⟩
      exact absurd hboth.1 (by decide)
  · simp only [if_neg hgrow]
    have hpow : 2 ^ k ≤ 2 ^ 19 := Nat.pow_le_pow_right (by decide) hk
    have hleast' : k = 0 ∨ 3072 * 2 ^ k < 2 * (done ++ [buf]).flatten.length := hleast.imp_right fun _ => by omega
    have hiff := hasRoom_iff hk (Nat.le_of_not_lt hgrow) hleast'
    refine ⟨fun hroom => ?_, fun hnot => if_neg fun hboth => hnot (hiff.2 hboth.2)⟩
    exact ⟨_, if_pos ⟨by omega, hiff.1 hroom⟩, rfl, rfl, ⟨k, hk, rfl, hleast'⟩, Nat.le_of_not_lt hgrow⟩

/-- The passes go through exactly if there is room after each of them. -/
theorem InputBuffer.passes_spec (hlens : ∀ buf ∈ reads, buf.length ≤ 1000) :
    ((∀ done, done <+: reads → HasRoom done) →
        ∃ x r, InputBuffer.passes reads = some x ∧ x.Holds r ∧ r.Counts reads) ∧
      (∀ x, InputBuffer.passes reads = some x → ∀ done, done <+: reads → HasRoom done) := by
  induction reads using List.reverseRecOn with
  | nil =>
      refine ⟨fun _ => ⟨_, _, rfl, InputBuffer.holds_start, Reading.counts_start⟩, fun x _ done hdone => ?_⟩
      obtain rfl := List.prefix_nil.1 hdone
      refine ⟨Nat.zero_le _, fun _ k => ?_⟩
      have hpos : 1 ≤ 2 ^ k := Nat.one_le_two_pow
      show 0 ≠ 3072 * 2 ^ k
      omega
  | append_singleton reads buf ih =>
      obtain ⟨ihsome, ihroom⟩ := ih fun b hb => hlens b (List.mem_append_left _ hb)
      have hlen := hlens buf (List.mem_append_right _ (List.mem_singleton_self _))
      have hpasses : InputBuffer.passes (reads ++ [buf]) = (InputBuffer.passes reads).bind fun x => x.pass buf := by
        unfold InputBuffer.passes
        rw [List.foldlM_append]
        cases reads.foldlM InputBuffer.pass InputBuffer.start with
        | none => rfl
        | some x => exact Option.bind_fun_some _
      constructor
      · intro hroom
        obtain ⟨x, r, hx, hholds, hcounts⟩ := ihsome fun done hdone => hroom done (hdone.trans (List.prefix_append _ _))
        obtain ⟨r', hadd, hcounts'⟩ := (hcounts.add hlen).1 (hroom _ (List.prefix_refl _))
        have hpass := hholds.pass buf
        rw [hadd] at hpass
        obtain ⟨x', hpass, hholds'⟩ := hpass
        exact ⟨x', r', by rw [hpasses, hx]; exact hpass, hholds', hcounts'⟩
      · intro x' hx' done hdone
        rw [hpasses] at hx'
        obtain ⟨x, hx, hpass⟩ := Option.bind_eq_some_iff.1 hx'
        rcases List.prefix_concat_iff.1 hdone with rfl | hdone
        · obtain ⟨x₁, r, hx₁, hholds, hcounts⟩ := ihsome (ihroom x hx)
          obtain rfl := Option.some.inj (hx.symm.trans hx₁)
          by_contra hnot
          have hnone := hholds.pass buf
          rw [(hcounts.add hlen).2 hnot] at hnone
          rw [hnone] at hpass
          cases hpass
        · exact ihroom x hx done hdone

/-! ## The newlines at the end -/

theorem stripLoop_spec {n : Nat} {str : Block Char} (h : ∀ i, i < n → ∃ c, str.load i = some c) :
    ∃ seen rest, InputBuffer.stripLoop n str = some (seen, rest) ∧ ∀ i ∈ seen, i < n := by
  induction n generalizing str with
  | zero => exact ⟨[], _, rfl, nofun⟩
  | succ n ih =>
      obtain ⟨c, hc⟩ := h n (Nat.lt_succ_self n)
      rw [InputBuffer.stripLoop, hc]
      simp only [Option.bind_eq_bind, Option.bind_some]
      split
      · obtain ⟨str₁, hstore⟩ := Block.exists_store (Block.lt_size_of_load hc) '\x00'
        have hload : ∀ i, i < n → ∃ c, str₁.load i = some c := fun i hi => by
          rw [Block.load_store_of_ne hstore (Nat.ne_of_lt hi)]
          exact h i (Nat.lt_succ_of_lt hi)
        obtain ⟨seen, rest, hloop, hseen⟩ := ih hload
        refine ⟨n :: seen, rest, ?_, fun i hi => ?_⟩
        · simp only [hstore, Option.bind_some, hloop]
        · rcases List.mem_cons.1 hi with rfl | hi
          · exact Nat.lt_succ_self _
          · exact Nat.lt_succ_of_lt (hseen i hi)
      · exact ⟨[n], _, rfl, fun i hi => List.mem_singleton.1 hi ▸ Nat.lt_succ_self n⟩

/-- The loop looks at the position before the size first. -/
theorem mem_stripLoop {n : Nat} {str : Block Char} {seen : List Nat} {rest : Block Char × Nat}
    (h : InputBuffer.stripLoop (n + 1) str = some (seen, rest)) : n ∈ seen := by
  rw [InputBuffer.stripLoop] at h
  obtain ⟨c, -, h⟩ := Option.bind_eq_some_iff.1 h
  split at h
  · obtain ⟨str₁, -, h⟩ := Option.bind_eq_some_iff.1 h
    obtain ⟨⟨seen', str', size⟩, -, h⟩ := Option.bind_eq_some_iff.1 h
    cases h
    exact List.mem_cons_self
  · cases h
    exact List.mem_singleton_self n

/-- `socket_read_string` stays inside its array and its string exactly if no NUL comes before the last character
and no pass fills the array exactly. -/
theorem socketReadString_safe_iff (h : IsRequest front last) :
    InputBuffer.Safe (front ++ [last]) ↔ SparesNul front last := by
  have hlens : ∀ buf ∈ front ++ [last], buf.length ≤ 1000 := fun buf hbuf => (h.lengths buf hbuf).2
  obtain ⟨hgoes, hroomed⟩ := InputBuffer.passes_spec hlens
  constructor
  · rintro ⟨-, x, str, seen, rest, hx, hstr, hstrip, hseen⟩
    have hroom := hroomed x hx
    obtain ⟨x₁, r, hx₁, hholds, hcounts⟩ := hgoes hroom
    obtain rfl := Option.some.inj (hx.symm.trans hx₁)
    obtain rfl := Option.some.inj (hstr.symm.trans hholds.string)
    have hle : (front ++ [last]).flatten.length ≤ ((front ++ [last]).flatMap asCString).length + 1 := by
      rw [hholds.strSize_eq, hcounts.strSize_eq] at hstrip
      cases hn : (front ++ [last]).flatten.length with
      | zero => exact Nat.zero_le _
      | succ n =>
          rw [hn] at hstrip
          have hfirst := hseen n (mem_stripLoop hstrip)
          rw [hcounts.str_eq] at hfirst
          exact Nat.succ_le_succ hfirst
    obtain ⟨hfront, hlast⟩ := h.length_le_iff.1 hle
    exact ⟨hfront, hlast, (hroom _ (List.prefix_refl _)).1, fun done hdone => (hroom done hdone).2⟩
  · rintro ⟨hfront, hlast, hmax, hexact⟩
    have hroom : ∀ done, done <+: front ++ [last] → HasRoom done := fun done hdone => by
      obtain ⟨rest, hrest⟩ := hdone
      have hlen := congrArg (fun l => l.flatten.length) hrest
      rw [List.flatten_append, List.length_append] at hlen
      exact ⟨by omega, hexact done ⟨rest, hrest⟩⟩
    have hpasses : ∀ done, done <+: front ++ [last] →
        ∃ x r, InputBuffer.passes done = some x ∧ x.Holds r ∧ r.Counts done := fun done hdone =>
      (InputBuffer.passes_spec fun buf hbuf => hlens buf (hdone.subset hbuf)).1 fun done' hdone' =>
        hroom done' (hdone'.trans hdone)
    refine ⟨fun done hdone => ?_, ?_⟩
    · obtain ⟨x, r, hx, hholds, -⟩ := hpasses done hdone
      have hlt := length_lt_of_stringAt hholds.string
      exact ⟨x, r.str, hx, hholds.string, hholds.size, hholds.size ▸ hlt⟩
    · obtain ⟨x, r, hx, hholds, hcounts⟩ := hpasses _ (List.prefix_refl _)
      have hle := h.length_le_iff.2 ⟨hfront, hlast⟩
      rw [← hcounts.strSize_eq, ← hholds.strSize_eq, ← hcounts.str_eq] at hle
      obtain ⟨seen, rest, hstrip, hseen⟩ := stripLoop_spec fun i (hi : i < x.strSize) =>
        exists_load hholds.string (show i ≤ r.str.length by omega)
      exact ⟨x, r.str, seen, rest, hx, hholds.string, hstrip, fun i hi => by
        have := hseen i hi
        omega⟩

/-- A request in two reads, the last one with a NUL behind the newline. -/
theorem socketReadString_safe_two_reads : InputBuffer.Safe (["look".toList] ++ [" []\n\x00".toList]) := by
  have hreq : IsRequest ["look".toList] " []\n\x00".toList := ⟨by decide, by decide, by decide⟩
  refine (socketReadString_safe_iff hreq).2 ⟨by decide, by decide, by decide, fun done hdone _ k hk => ?_⟩
  obtain ⟨rest, hrest⟩ := hdone
  have hlen := congrArg (fun l => l.flatten.length) hrest
  have htotal : (["look".toList] ++ [" []\n\x00".toList]).flatten.length = 9 := by decide
  have hpow : 1 ≤ 2 ^ k := Nat.one_le_two_pow
  rw [htotal, List.flatten_append, List.length_append] at hlen
  omega

def letters (n : Nat) : List Char := List.replicate n 'a'

theorem letters_spec (n : Nat) : (letters n).length = n ∧ ∀ c ∈ letters n, c = 'a' :=
  ⟨List.length_replicate, fun _ hc => (List.mem_replicate.1 hc).2⟩

/-- A line that fills the array: its NUL is written behind it. -/
theorem full_array_overrun :
    IsRequest [letters 1000, letters 1000, letters 1000] (letters 71 ++ ['\n']) ∧
      ¬ InputBuffer.Safe ([letters 1000, letters 1000, letters 1000] ++ [letters 71 ++ ['\n']]) := by
  have hlast : endsRequest (letters 71 ++ ['\n']) = true := by
    rw [endsRequest, List.getLast?_concat]
    rfl
  have hreq : IsRequest [letters 1000, letters 1000, letters 1000] (letters 71 ++ ['\n']) := by
    refine ⟨?_, fun buf hbuf => ?_, hlast⟩
    · simp only [List.cons_append, List.nil_append, List.forall_mem_cons, List.length_append, (letters_spec _).1]
      exact ⟨by decide, by decide, by decide, by decide, fun x hx => absurd hx List.not_mem_nil⟩
    · have heq : buf = letters 1000 := by simpa using hbuf
      have hend : ∀ c, buf.getLast? = some c → c = 'a' := fun c hc =>
        (letters_spec 1000).2 c (heq ▸ List.mem_of_getLast? hc)
      rw [endsRequest, Bool.or_eq_false_iff]
      exact ⟨decide_eq_false fun h => absurd (hend _ h) (by decide),
        decide_eq_false fun h => absurd (hend _ h) (by decide)⟩
  refine ⟨hreq, ?_⟩
  rintro ⟨-, x, -, -, -, hx, -⟩
  have hroom := (InputBuffer.passes_spec fun buf hbuf => (hreq.lengths buf hbuf).2).2 x hx _ (List.prefix_refl _)
  refine hroom.2 (fun hnul => ?_) 0 ?_
  · simp only [List.cons_append, List.nil_append, List.flatten_cons, List.flatten_nil, List.mem_append] at hnul
    have hnot : ∀ n, '\x00' ∉ letters n := fun n h => absurd ((letters_spec n).2 _ h) (by decide)
    simp [hnot] at hnul
  · simp only [List.cons_append, List.nil_append, List.flatten_cons, List.flatten_nil, List.length_append,
      (letters_spec _).1, List.length_singleton, List.length_nil]
    rfl

end CTracker
end Raiezau
