import Mathlib.Data.List.Infix
import Raiezau.CUtil.CString
import Raiezau.Text.Lines

/-!
# Input — how the C tracker reads a request

`socket_read_string` in `tracker/network.c`.  A request is what is read up to a read that ends in a newline
or a NUL; nothing is kept from one call to the next.
-/

namespace Raiezau
namespace CTracker

open CUtil Text

/-! ## Model -/

/-- `HEURISTIC_SIZE` of `network.c`. -/
def heuristicSize : Nat := 3072

/-- The variables of the loop; `str` is the array up to its first NUL. -/
structure Reading where
  str : CString
  strSize : Nat
  strBufsize : Nat
  deriving DecidableEq, Repr

def Reading.start : Reading := { str := [], strSize := 0, strBufsize := heuristicSize }

/-- A pass of the loop.  It has no result when the size of the array overflows its `int`, or when `strcat`
writes past the end of the array. -/
def Reading.add (x : Reading) (buf : List Char) : Option Reading :=
  let strBufsize := if x.strBufsize < x.strSize + buf.length then 2 * x.strBufsize else x.strBufsize
  let str := x.str ++ asCString buf
  if strBufsize < 2 ^ 31 ∧ str.length + 1 ≤ strBufsize then
    some { str := str, strSize := x.strSize + buf.length, strBufsize := strBufsize }
  else none

/-- A read whose last character ends the request. -/
def endsRequest (buf : List Char) : Bool :=
  buf.getLast? = some '\x00' || buf.getLast? = some '\n'

/-- The loop, and the reads it leaves; when they run out it waits for more. -/
def readLoop : Reading → List (List Char) → Option (Option Reading × List (List Char))
  | _, [] => some (none, [])
  | x, buf :: reads => do
      let x ← x.add buf
      if endsRequest buf then some (some x, reads) else readLoop x reads

/-- Remove the newlines at the end of the line. -/
def stripNewlines : CString → Nat → CString × Nat
  | str, 0 => (str, 0)
  | str, size + 1 =>
      if str[size]? = some '\n' then stripNewlines (str.take size) size else (str, size + 1)

/-- The string a call produces, if the reads it is given end a request, and the reads left to the next. -/
def socketReadString (reads : List (List Char)) : Option (Option CString × List (List Char)) := do
  let (x, reads) ← readLoop .start reads
  match x with
  | some x => some (some (stripNewlines x.str x.strSize).1, reads)
  | none => some (none, reads)

/-- Successive calls: every one takes a read at least. -/
def socketReadStrings : Nat → List (List Char) → Option (List CString)
  | 0, _ => some []
  | fuel + 1, reads => do
      let (str, reads) ← socketReadString reads
      match str with
      | some str => do
          let strs ← socketReadStrings fuel reads
          some (str :: strs)
      | none => some []

/-! ## The size of the array -/

/-- A request of that many characters leaves a place for the NUL, and fits an `int`. -/
def Roomy (n : Nat) : Prop := n < 3072 * 2 ^ 19 ∧ ∀ k, n ≠ 3072 * 2 ^ k

/-- What has come of a request is roomy after each of its reads. -/
def Fits : Nat → List (List Char) → Prop
  | _, [] => True
  | n, buf :: reads =>
      Roomy (n + buf.length) ∧ Fits (if endsRequest buf then 0 else n + buf.length) reads

/-- What the loop has read so far, without a NUL in it. -/
structure Reading.Holds (x : Reading) (acc : CString) : Prop where
  str_eq : x.str = acc
  size_eq : x.strSize = acc.length
  bufsize : ∃ k, k ≤ 19 ∧ x.strBufsize = 3072 * 2 ^ k
  lt_bufsize : acc.length < x.strBufsize

theorem holds_start : Reading.start.Holds [] := ⟨rfl, rfl, ⟨0, Nat.zero_le _, rfl⟩, by decide⟩

theorem Reading.Holds.add {x : Reading} {acc buf : List Char} (h : x.Holds acc) (hlen : buf.length ≤ 1000)
    (hnul : '\x00' ∉ buf) (hroom : Roomy (acc.length + buf.length)) :
    ∃ x', x.add buf = some x' ∧ x'.Holds (acc ++ buf) := by
  obtain ⟨hstr, hsize, ⟨k, hk, hbuf⟩, hlt⟩ := h
  obtain ⟨hmax, hne⟩ := hroom
  have hpow : 1 ≤ 2 ^ k := Nat.one_le_two_pow
  have hcut := asCString_eq_self hnul
  unfold Reading.add
  rw [hstr, hsize, hcut]
  dsimp only
  split
  · next hover =>
      have hk' : k < 19 := by
        by_contra hnot
        obtain rfl : k = 19 := by omega
        omega
      have hdouble : 3072 * 2 ^ (k + 1) = 2 * x.strBufsize := by
        rw [hbuf, Nat.pow_succ]
        omega
      have hpow' : 2 ^ (k + 1) ≤ 2 ^ 19 := Nat.pow_le_pow_right (by decide) hk'
      have hok : 2 * x.strBufsize < 2 ^ 31 ∧ (acc ++ buf).length + 1 ≤ 2 * x.strBufsize := by
        rw [List.length_append]
        omega
      rw [if_pos hok]
      exact ⟨_, rfl, rfl, by rw [List.length_append], ⟨k + 1, hk', hdouble.symm⟩, hok.2⟩
  · next hfits =>
      have hpow' : 2 ^ k ≤ 2 ^ 19 := Nat.pow_le_pow_right (by decide) hk
      have hne := hne k
      have hok : x.strBufsize < 2 ^ 31 ∧ (acc ++ buf).length + 1 ≤ x.strBufsize := by
        rw [List.length_append]
        omega
      rw [if_pos hok]
      exact ⟨_, rfl, rfl, by rw [List.length_append], ⟨k, hk, hbuf⟩, hok.2⟩

/-! ## The strings of successive calls -/

/-- The reads of each call put together, before newlines are taken off. -/
def requestTexts : CString → List (List Char) → List CString
  | _, [] => []
  | acc, buf :: reads =>
      if endsRequest buf then (acc ++ buf) :: requestTexts [] reads else requestTexts (acc ++ buf) reads

/-- Reads as the kernel may return them, without a NUL. -/
def ReadsOk (reads : List (List Char)) : Prop := ∀ buf ∈ reads, buf.length ≤ 1000 ∧ '\x00' ∉ buf

theorem readLoop_spec {x : Reading} {acc : CString} {reads : List (List Char)} (hx : x.Holds acc)
    (hok : ReadsOk reads) (hfits : Fits acc.length reads) :
    (requestTexts acc reads = [] ∧ readLoop x reads = some (none, [])) ∨
      ∃ x' text rest, readLoop x reads = some (some x', rest) ∧ x'.Holds text ∧
        requestTexts acc reads = text :: requestTexts [] rest ∧ ReadsOk rest ∧ Fits 0 rest ∧
        rest.length < reads.length := by
  induction reads generalizing x acc with
  | nil => exact .inl ⟨rfl, rfl⟩
  | cons buf reads ih =>
      obtain ⟨hlen, hnul⟩ := hok buf List.mem_cons_self
      have hok' : ReadsOk reads := fun b hb => hok b (List.mem_cons_of_mem _ hb)
      obtain ⟨hroom, hrest⟩ := hfits
      obtain ⟨x₁, hadd, hx₁⟩ := hx.add hlen hnul hroom
      by_cases hend : endsRequest buf = true
      · rw [if_pos hend] at hrest
        refine .inr ⟨x₁, acc ++ buf, reads, ?_, hx₁, ?_, hok', hrest, Nat.lt_succ_self _⟩
        · rw [readLoop, hadd]
          exact if_pos hend
        · rw [requestTexts, if_pos hend]
      · rw [if_neg hend, ← List.length_append] at hrest
        have hloop : readLoop x (buf :: reads) = readLoop x₁ reads := by
          rw [readLoop, hadd]
          exact if_neg hend
        rw [hloop, requestTexts, if_neg hend]
        rcases ih hx₁ hok' hrest with hwait | ⟨x', text, rest, hread, hx', htexts, hok'', hfits', hlt⟩
        · exact .inl hwait
        · exact .inr ⟨x', text, rest, hread, hx', htexts, hok'', hfits', Nat.lt_succ_of_lt hlt⟩

theorem socketReadStrings_eq {fuel : Nat} {reads : List (List Char)} (hfuel : reads.length ≤ fuel)
    (hok : ReadsOk reads) (hfits : Fits 0 reads) :
    socketReadStrings fuel reads =
      some ((requestTexts [] reads).map fun text => (stripNewlines text text.length).1) := by
  induction fuel generalizing reads with
  | zero =>
      obtain rfl := List.eq_nil_of_length_eq_zero (Nat.le_zero.1 hfuel)
      rfl
  | succ fuel ih =>
      rw [socketReadStrings, socketReadString]
      rcases readLoop_spec holds_start hok hfits with ⟨htexts, hread⟩ | ⟨x, text, rest, hread, hx, htexts, hok', hfits', hlt⟩
      · rw [hread, htexts]
        rfl
      · rw [hread, htexts]
        dsimp only [Option.bind_eq_bind, Option.bind_some]
        rw [ih (by omega) hok' hfits', hx.str_eq, hx.size_eq]
        rfl

/-! ## Newlines at the end of a text -/

theorem stripNewlines_of_not {text : CString} (h : text.getLast? ≠ some '\n') :
    stripNewlines text text.length = (text, text.length) := by
  cases hn : text.length with
  | zero => rw [stripNewlines]
  | succ n =>
      rw [List.getLast?_eq_getElem?, hn, Nat.add_sub_cancel] at h
      rw [stripNewlines, if_neg h]

/-- One newline is taken off a text that has one at its end. -/
theorem stripNewlines_concat {text : CString} (h : text.getLast? ≠ some '\n') :
    (stripNewlines (text ++ ['\n']) (text ++ ['\n']).length).1 = text := by
  rw [List.length_append, List.length_singleton, stripNewlines, if_pos (by simp), List.take_left',
    stripNewlines_of_not h]
  rfl

theorem prefix_stripNewlines {a text : CString} {size : Nat} (hsize : text.length = size) (ha : a <+: text)
    (hlast : a.getLast? ≠ some '\n') : a <+: (stripNewlines text size).1 := by
  induction size generalizing text with
  | zero => exact ha
  | succ size ih =>
      rw [stripNewlines]
      split
      · next hnl =>
          have hshort : a.length ≤ size := by
            by_contra hnot
            have hlen := ha.length_le
            obtain rfl := ha.eq_of_length (by omega)
            rw [List.getLast?_eq_getElem?, hsize] at hlast
            exact hlast hnl
          refine ih (by rw [List.length_take]; omega) ?_
          rw [List.prefix_take_iff]
          exact ⟨ha, hshort⟩
      · exact ha

theorem prefix_requestTexts {acc text : CString} {texts : List CString} {reads : List (List Char)}
    (h : requestTexts acc reads = text :: texts) : acc <+: text := by
  induction reads generalizing acc with
  | nil => cases h
  | cons buf reads ih =>
      rw [requestTexts] at h
      split at h
      · obtain rfl := (List.cons.inj h).1
        exact List.prefix_append acc buf
      · exact (List.prefix_append acc buf).trans (ih h)

/-- A newline before the end of a read ends up within a string. -/
theorem requestTexts_ne {a text : CString} {texts : List CString} {s : List Char} (ha : a <+: text)
    (hlast : a.getLast? ≠ some '\n') (hmem : '\n' ∈ a) :
    (text :: texts).map (fun text => (stripNewlines text text.length).1) ≠ completeLines '\n' s := by
  intro heq
  have hhead : (stripNewlines text text.length).1 ∈ completeLines '\n' s := by
    rw [← heq]
    exact List.mem_cons_self
  exact not_mem_of_mem_completeLines hhead ((prefix_stripNewlines rfl ha hlast).subset hmem)

theorem endsRequest_iff {buf : List Char} (hnul : '\x00' ∉ buf) :
    endsRequest buf = true ↔ buf.getLast? = some '\n' := by
  have hne : buf.getLast? ≠ some '\x00' := fun h => hnul (List.mem_of_getLast? h)
  simp [endsRequest, hne]

/-- The texts are the lines exactly when every newline is the last character of its read. -/
theorem requestTexts_iff {acc : CString} {reads : List (List Char)} (hacc : '\n' ∉ acc) (hok : ReadsOk reads)
    (hempty : [] ∉ completeLines '\n' (acc ++ reads.flatten)) :
    (requestTexts acc reads).map (fun text => (stripNewlines text text.length).1) =
        completeLines '\n' (acc ++ reads.flatten) ↔
      ∀ buf ∈ reads, '\n' ∉ buf.dropLast := by
  induction reads generalizing acc with
  | nil =>
      rw [List.flatten_nil, List.append_nil, completeLines_of_not_mem hacc]
      simp [requestTexts]
  | cons buf reads ih =>
      obtain ⟨-, hnul⟩ := hok buf List.mem_cons_self
      have hok' : ReadsOk reads := fun b hb => hok b (List.mem_cons_of_mem _ hb)
      rw [List.flatten_cons, ← List.append_assoc] at hempty ⊢
      rw [requestTexts, List.forall_mem_cons]
      by_cases hend : buf.getLast? = some '\n'
      · rw [if_pos ((endsRequest_iff hnul).2 hend)]
        obtain ⟨body, rfl⟩ : ∃ body, buf = body ++ ['\n'] := List.getLast?_eq_some_iff.1 hend
        rw [List.dropLast_concat]
        by_cases hbody : '\n' ∈ body
        · have hlast : (acc ++ body).getLast? ≠ some '\n' := by
            intro h
            obtain ⟨front, hfront⟩ := List.getLast?_eq_some_iff.1 h
            rw [← List.append_assoc, hfront] at hempty
            simp only [List.append_assoc, List.singleton_append] at hempty
            exact hempty nil_mem_completeLines
          have hprefix : acc ++ body <+: acc ++ (body ++ ['\n']) := by
            rw [← List.append_assoc]
            exact List.prefix_append _ _
          refine iff_of_false (requestTexts_ne hprefix hlast (List.mem_append_right _ hbody)) ?_
          exact fun h => h.1 hbody
        · have hfree : '\n' ∉ acc ++ body := by simp [hacc, hbody]
          have hlast : (acc ++ body).getLast? ≠ some '\n' := fun h => hfree (List.mem_of_getLast? h)
          have hline : completeLines '\n' (acc ++ (body ++ ['\n']) ++ reads.flatten) =
              (acc ++ body) :: completeLines '\n' ([] ++ reads.flatten) := by
            have hsplit : acc ++ (body ++ ['\n']) ++ reads.flatten = (acc ++ body) ++ '\n' :: reads.flatten := by
              simp
            rw [hsplit, completeLines_line hfree]
            rfl
          rw [hline] at hempty ⊢
          rw [List.map_cons, ← List.append_assoc, stripNewlines_concat hlast, List.cons.injEq,
            ih List.not_mem_nil hok' fun h => hempty (List.mem_cons_of_mem _ h)]
          exact ⟨fun h => ⟨hbody, h.2⟩, fun h => ⟨rfl, h.2⟩⟩
      · rw [if_neg fun h => hend ((endsRequest_iff hnul).1 h)]
        by_cases hmem : '\n' ∈ buf
        · have hne : buf ≠ [] := List.ne_nil_of_mem hmem
          have hdrop : '\n' ∈ buf.dropLast := List.mem_dropLast_of_mem_of_ne_getLast? hmem (Ne.symm hend)
          have hlast : (acc ++ buf).getLast? ≠ some '\n' := by
            rw [List.getLast?_append_of_ne_nil _ hne]
            exact hend
          refine iff_of_false ?_ fun h => h.1 hdrop
          cases htexts : requestTexts (acc ++ buf) reads with
          | nil =>
              refine (completeLines_ne_nil ?_).symm
              simp [hmem]
          | cons text texts =>
              exact requestTexts_ne (prefix_requestTexts htexts) hlast (List.mem_append_right _ hmem)
        · have hfree : '\n' ∉ acc ++ buf := by simp [hacc, hmem]
          rw [ih hfree hok' hempty]
          exact ⟨fun h => ⟨fun hd => hmem (List.mem_of_mem_dropLast hd), h⟩, And.right⟩

/-- Successive calls produce the lines of the stream exactly when no read goes on behind a newline. -/
theorem socketReadStrings_iff {lines : List CString} {reads : List (List Char)}
    (hlines : ∀ l ∈ lines, l ≠ [] ∧ '\n' ∉ l ∧ '\x00' ∉ l)
    (hreads : ∀ buf ∈ reads, 1 ≤ buf.length ∧ buf.length ≤ 1000)
    (hstream : reads.flatten = lines.flatMap fun l => l ++ ['\n']) (hfits : Fits 0 reads) :
    socketReadStrings reads.length reads = some lines ↔ ∀ buf ∈ reads, '\n' ∉ buf.dropLast := by
  have hok : ReadsOk reads := by
    refine fun buf hbuf => ⟨(hreads buf hbuf).2, fun hnul => ?_⟩
    have hmem : '\x00' ∈ reads.flatten := List.mem_flatten_of_mem hbuf hnul
    rw [hstream, List.mem_flatMap] at hmem
    obtain ⟨l, hl, hc⟩ := hmem
    rcases List.mem_append.1 hc with hc | hc
    · exact (hlines l hl).2.2 hc
    · exact absurd (List.mem_singleton.1 hc) (by decide)
  have hcut : completeLines '\n' ([] ++ reads.flatten) = lines := by
    rw [List.nil_append, hstream]
    exact completeLines_flatMap fun l hl => (hlines l hl).2.1
  have hiff := requestTexts_iff List.not_mem_nil hok (by rw [hcut]; exact fun h => (hlines [] h).1 rfl)
  rw [hcut] at hiff
  rw [socketReadStrings_eq (Nat.le_refl _) hok hfits, Option.some_inj]
  exact hiff

theorem roomy_of_lt {n : Nat} (h : n < 3072) : Roomy n := by
  refine ⟨by omega, fun k => ?_⟩
  have hpow : 1 ≤ 2 ^ k := Nat.one_le_two_pow
  omega

/-- Two lines in three reads, one of them cut in the middle. -/
theorem socketReadStrings_iff_three_reads :
    socketReadStrings 3 ["look".toList, " []\n".toList, "getfile a\n".toList] =
        some ["look []".toList, "getfile a".toList] ↔
      ∀ buf ∈ ["look".toList, " []\n".toList, "getfile a\n".toList], '\n' ∉ buf.dropLast := by
  have hlines : ∀ l ∈ ["look []".toList, "getfile a".toList], l ≠ [] ∧ '\n' ∉ l ∧ '\x00' ∉ l := by decide
  have hfits : Fits 0 ["look".toList, " []\n".toList, "getfile a\n".toList] :=
    ⟨roomy_of_lt (by decide), roomy_of_lt (by decide), roomy_of_lt (by decide), trivial⟩
  exact socketReadStrings_iff hlines (by decide) (by decide) hfits

/-- Two lines in one read are one string. -/
theorem two_lines_in_one_read :
    (∀ l ∈ ["look []".toList, "getfile a".toList], l ≠ [] ∧ '\n' ∉ l ∧ '\x00' ∉ l) ∧
      (∀ buf ∈ ["look []\ngetfile a\n".toList], 1 ≤ buf.length ∧ buf.length ≤ 1000) ∧
      ["look []\ngetfile a\n".toList].flatten =
        (["look []".toList, "getfile a".toList].flatMap fun l => l ++ ['\n']) ∧
      socketReadStrings 1 ["look []\ngetfile a\n".toList] ≠
        some ["look []".toList, "getfile a".toList] := by
  decide

end CTracker
end Raiezau
