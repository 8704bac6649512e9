import Raiezau.JavaClient.DataReply
import Raiezau.Machine.Run

/-!
# ShortRead — streams that arrive in parts

A read of several characters returns as many as are there, at least one, and `receiveByte` does not look at the
number: the rest of its array stays zero, and the characters that come later are taken for what follows.  A run is a
sequence of calls with the counts that the reads return; it is compared with the calls on the stream as a whole.
-/

namespace Raiezau
namespace JavaClient

open CUtil Machine Bytes Socket

/-! ## Model -/

/-- What a call returns. -/
inductive Received
  | bytes (b : List UInt8)
  | text (s : CString)
  deriving DecidableEq, Repr

inductive Receive
  | receiveByte (length : Int)
  | receiveUntil (t : List Char)
  deriving DecidableEq, Repr

/-- A call, with the count that its bulk read returns. -/
structure Served where
  call : Receive
  count : Nat
  deriving DecidableEq, Repr

/-- One end of a connection: the characters that are still to come, and what the calls so far returned. -/
structure Receiver where
  unread : List Char
  returned : List (Except JavaError Received)
  deriving DecidableEq

namespace Receiver

/-- The loop of `receiveUntil`: each read is for one character, and leaves a zero at the end of the stream. -/
def untilLoop (t : List Char) : Nat → CString → List Char → CString × List Char
  | 0, sb, xs => (sb, xs)
  | i + 1, sb, xs =>
      let tmp := xs[0]?.getD '\x00'
      if t.contains tmp then (sb, xs.drop 1) else untilLoop t i (sb ++ [tmp]) (xs.drop 1)

/-- What a call returns, and what it leaves of the stream. -/
def receive (e : Served) (xs : List Char) : Except JavaError Received × List Char :=
  match e.call with
  | .receiveByte length =>
      if length < 0 then (.error .negativeArraySize, xs)
      else
        let t := padTo '\x00' length.toNat (xs.take e.count)
        (.ok (.bytes (t.map charToByte)), xs.drop e.count)
  | .receiveUntil t =>
      let r := untilLoop t maxBufferSize [] xs
      (.ok (.text r.1), r.2)

/-- The counts a read may return: no more than asked for and not more than there is, and none only if none is asked
for or there. -/
def MayServe (xs : List Char) (e : Served) : Prop :=
  match e.call with
  | .receiveByte length => e.count ≤ length.toNat ∧ e.count ≤ xs.length ∧ (0 < length → xs ≠ [] → 0 < e.count)
  | .receiveUntil _ => e.count = 1

def perform (s : Receiver) (e : Served) : Receiver :=
  { unread := (receive e s.unread).2
    returned := s.returned ++ [(receive e s.unread).1] }

def Step (s : Receiver) (e : Served) (s' : Receiver) : Prop := MayServe s.unread e ∧ s' = s.perform e

/-- The call when everything that is to come is there. -/
def whole (xs : List Char) (c : Receive) : Served :=
  match c with
  | .receiveByte length => ⟨c, min length.toNat xs.length⟩
  | .receiveUntil _ => ⟨c, 1⟩

def atOnce (s : Receiver) (c : Receive) : Receiver := s.perform (whole s.unread c)

/-- The calls of a run, the first one first. -/
def calls (h : History Receiver Served) : List Receive := (h.map fun x => x.2.call).reverse

/-- The calls so far returned what they return on the whole stream, and so will any calls to come; and the last call
returned the next bytes, if there were as many as it asked for. -/
structure ArrivalFree (xs : List Char) (h : History Receiver Served) (s : Receiver) : Prop where
  same : ∀ later : List Receive,
    (later.foldl atOnce s).returned = ((calls h ++ later).foldl atOnce ⟨xs, []⟩).returned
  next : ∀ s₀ n count, h.head? = some (s₀, ⟨.receiveByte n, count⟩) → 0 ≤ n → n.toNat ≤ s₀.unread.length →
    s.returned = s₀.returned ++ [.ok (.bytes ((s₀.unread.take n.toNat).map charToByte))]

/-- The bulk read returns all it is asked for, or nothing but zeros comes after what it returns. -/
def ServedWhole (s : Receiver) (e : Served) : Prop :=
  match e.call with
  | .receiveByte length => length ≤ e.count ∨ ∀ c ∈ s.unread.drop e.count, c = '\x00'
  | .receiveUntil _ => True

instance (s : Receiver) (e : Served) : Decidable (s.ServedWhole e) := by
  unfold ServedWhole
  split <;> infer_instance

instance (xs : List Char) (e : Served) : Decidable (MayServe xs e) := by
  unfold MayServe
  split <;> infer_instance

variable {xs ys : List Char} {s s' : Receiver} {e : Served} {c : Receive} {h : History Receiver Served}

/-! ## The whole stream -/

theorem mayServe_whole (xs : List Char) (c : Receive) : MayServe xs (whole xs c) := by
  cases c with
  | receiveByte length =>
      refine ⟨Nat.min_le_left _ _, Nat.min_le_right _ _, fun hlength hxs => ?_⟩
      have hpos : 0 < xs.length := List.length_pos_iff.2 hxs
      exact Nat.lt_min.2 ⟨by omega, hpos⟩
  | receiveUntil t => rfl

theorem receive_whole_byte {n : Int} (hn : 0 ≤ n) (xs : List Char) : receive (whole xs (.receiveByte n)) xs =
    (.ok (.bytes ((readAt '\x00' xs 0 n.toNat).map charToByte)), xs.drop (min n.toNat xs.length)) := by
  have htake : xs.take (min n.toNat xs.length) = xs.take n.toNat := List.take_eq_take_min.symm
  unfold receive whole
  dsimp only
  rw [if_neg (Int.not_lt.2 hn), htake, readAt, List.drop_zero]

theorem receive_until (t : List Char) (k : Nat) (xs : List Char) : receive ⟨.receiveUntil t, k⟩ xs =
    (.ok (.text (untilLoop t maxBufferSize [] xs).1), (untilLoop t maxBufferSize [] xs).2) := rfl

theorem returned_atOnce (s : Receiver) (c : Receive) :
    (s.atOnce c).returned = s.returned ++ [(receive (whole s.unread c) s.unread).1] := rfl

theorem unread_atOnce (s : Receiver) (c : Receive) :
    (s.atOnce c).unread = (receive (whole s.unread c) s.unread).2 := rfl

theorem untilLoop_alike (hxs : Alike '\x00' xs ys) (t : List Char) (i : Nat) (sb : CString) :
    (untilLoop t i sb xs).1 = (untilLoop t i sb ys).1 ∧
      Alike '\x00' (untilLoop t i sb xs).2 (untilLoop t i sb ys).2 := by
  induction i generalizing sb xs ys with
  | zero => exact ⟨rfl, hxs⟩
  | succ i ih =>
      unfold untilLoop
      dsimp only
      -- The next characters are the same, if need be the zero at the end.
      rw [hxs 0]
      by_cases hstop : t.contains (ys[0]?.getD '\x00') = true
      · rw [if_pos hstop, if_pos hstop]
        exact ⟨rfl, hxs.drop 1⟩
      · rw [if_neg hstop, if_neg hstop]
        exact ih (hxs.drop 1) _

/-- Zeros at the end of the stream cannot be told from its end. -/
theorem receive_alike (hxs : Alike '\x00' xs ys) (c : Receive) :
    (receive (whole xs c) xs).1 = (receive (whole ys c) ys).1 ∧
      Alike '\x00' (receive (whole xs c) xs).2 (receive (whole ys c) ys).2 := by
  cases c with
  | receiveByte n =>
      by_cases hn : n < 0
      · have hthrow : ∀ zs, receive (whole zs (.receiveByte n)) zs = (.error .negativeArraySize, zs) := fun _ => if_pos hn
        rw [hthrow, hthrow]
        exact ⟨rfl, hxs⟩
      -- The bytes are the same; the counts may not be, but what they skip is.
      · rw [receive_whole_byte (Int.not_lt.1 hn), receive_whole_byte (Int.not_lt.1 hn), hxs.readAt_eq]
        refine ⟨rfl, ?_⟩
        exact ((alike_drop_min _ xs _).trans (hxs.drop _)).trans (alike_drop_min _ ys _).symm
  | receiveUntil t =>
      obtain ⟨htext, hrest⟩ := untilLoop_alike hxs t maxBufferSize []
      exact ⟨congrArg (fun w => Except.ok (Received.text w)) htext, hrest⟩

theorem foldl_atOnce_alike {w : Receiver} (hreturned : s.returned = w.returned)
    (hunread : Alike '\x00' s.unread w.unread) (later : List Receive) :
    (later.foldl atOnce s).returned = (later.foldl atOnce w).returned := by
  induction later generalizing s w with
  | nil => exact hreturned
  | cons c later ih =>
      obtain ⟨hout, hrest⟩ := receive_alike hunread c
      have hreturned' : (s.atOnce c).returned = (w.atOnce c).returned := by
        unfold atOnce perform
        rw [hreturned, hout]
      exact ih hreturned' hrest

theorem prefix_untilLoop (t : List Char) (i : Nat) (sb : CString) (xs : List Char) : sb <+: (untilLoop t i sb xs).1 := by
  induction i generalizing sb xs with
  | zero => exact List.prefix_refl sb
  | succ i ih =>
      unfold untilLoop
      dsimp only
      split
      · exact List.prefix_refl sb
      · exact (List.prefix_append sb _).trans (ih _ _)

/-- A text that nothing stops begins with the next character. -/
theorem head_untilLoop_nil (i : Nat) (xs : List Char) :
    (untilLoop [] (i + 1) [] xs).1[0]? = some (xs[0]?.getD '\x00') := by
  obtain ⟨rest, hrest⟩ := prefix_untilLoop [] i [xs[0]?.getD '\x00'] (xs.drop 1)
  have hloop : untilLoop [] (i + 1) [] xs = untilLoop [] i [xs[0]?.getD '\x00'] (xs.drop 1) := rfl
  rw [hloop, ← hrest]
  rfl

/-- Two receivers return the same whatever is called if and only if they have returned the same and what they have
left differs by zeros at the end only. -/
theorem indistinguishable_iff (s w : Receiver) :
    (∀ later : List Receive, (later.foldl atOnce s).returned = (later.foldl atOnce w).returned) ↔
      s.returned = w.returned ∧ Alike '\x00' s.unread w.unread := by
  constructor
  · intro hall
    refine ⟨hall [], fun k => ?_⟩
    -- The character at `k` is the first one of a text read behind `k` bytes.
    have hcell : ∀ s : Receiver, (s.atOnce (.receiveByte k)).unread[0]?.getD '\x00' = s.unread[k]?.getD '\x00' := by
      intro s
      rw [unread_atOnce, receive_whole_byte (Int.natCast_nonneg k), Int.toNat_natCast,
        alike_drop_min '\x00' s.unread k 0, getD_drop, Nat.add_zero]
    have htwo := hall [.receiveByte k, .receiveUntil []]
    simp only [List.foldl_cons, List.foldl_nil, returned_atOnce _ (.receiveUntil []), whole, receive_until] at htwo
    have hlast := congrArg List.getLast? htwo
    rw [List.getLast?_concat, List.getLast?_concat, Option.some.injEq, Except.ok.injEq, Received.text.injEq] at hlast
    have hhead := congrArg (fun w : CString => w[0]?) hlast
    simp only [maxBufferSize, head_untilLoop_nil, hcell] at hhead
    exact Option.some.inj hhead
  · rintro ⟨hreturned, hunread⟩ later
    exact foldl_atOnce_alike hreturned hunread later

/-! ## One read -/

theorem receive_byte {n : Int} {k : Nat} (hn : 0 ≤ n) (hk : k ≤ n.toNat) (xs : List Char) :
    receive ⟨.receiveByte n, k⟩ xs =
      (.ok (.bytes ((readAt '\x00' (xs.take k) 0 n.toNat).map charToByte)), xs.drop k) := by
  have htake : ((xs.take k).drop 0).take n.toNat = xs.take k := by
    rw [List.drop_zero, List.take_take, Nat.min_eq_right hk]
  unfold receive
  dsimp only
  rw [if_neg (Int.not_lt.2 hn), readAt, htake]

theorem alike_take {k : Nat} (hrest : Alike '\x00' (xs.drop k) []) : Alike '\x00' (xs.take k) xs := by
  intro j
  rw [getD_take]
  by_cases hj : j < k
  · rw [if_pos hj]
  · have hzero := hrest (j - k)
    rw [getD_drop, Nat.add_sub_cancel' (Nat.not_lt.1 hj)] at hzero
    rw [if_neg hj, hzero]
    rfl

/-- A read that is served in part does as if it had been served whole exactly if only zeros come after it. -/
theorem receive_eq_whole_iff (hserve : MayServe xs e) :
    ((receive e xs).1 = (receive (whole xs e.call) xs).1 ∧
      Alike '\x00' (receive e xs).2 (receive (whole xs e.call) xs).2) ↔ ServedWhole ⟨xs, s.returned⟩ e := by
  obtain ⟨call, k⟩ := e
  cases call with
  | receiveUntil t => exact iff_of_true ⟨rfl, fun _ => rfl⟩ trivial
  | receiveByte n =>
      obtain ⟨hk, hlen, -⟩ := hserve
      dsimp only at hk hlen ⊢
      by_cases hn : n < 0
      · have hthrow : ∀ j, receive ⟨.receiveByte n, j⟩ xs = (.error .negativeArraySize, xs) := fun _ => if_pos hn
        rw [whole, hthrow, hthrow]
        exact iff_of_true ⟨rfl, fun _ => rfl⟩ (.inl (by omega))
      · have hnonneg : 0 ≤ n := Int.not_lt.1 hn
        rw [receive_byte hnonneg hk, receive_whole_byte hnonneg]
        constructor
        · rintro ⟨-, hrest⟩
          -- After too few bytes what is left is shifted against what should be, so it is all zeros.
          by_cases hfull : n ≤ k
          · exact .inl hfull
          · have hshift := hrest.trans (alike_drop_min '\x00' xs n.toNat)
            have hsplit : xs.drop n.toNat = (xs.drop k).drop (n.toNat - k) := by
              rw [List.drop_drop, Nat.add_sub_cancel' hk]
            rw [hsplit] at hshift
            exact .inr (alike_nil_iff.1 (alike_nil_of_shift (by omega) hshift))
        · rintro (hfull | hzeros)
          · have hle : n ≤ (k : Int) := hfull
            -- A full read takes what the whole stream gives.
            obtain rfl : k = n.toNat := by omega
            rw [Nat.min_eq_left hlen]
            refine ⟨?_, fun _ => rfl⟩
            have htake : readAt '\x00' (xs.take n.toNat) 0 n.toNat = readAt '\x00' xs 0 n.toNat := by
              rw [readAt, readAt, List.drop_zero, List.drop_zero, List.take_take, Nat.min_self]
            rw [htake]
          · have hnil : Alike '\x00' (xs.drop k) [] := alike_nil_iff.2 hzeros
            refine ⟨by rw [(alike_take hnil).readAt_eq], hnil.trans ?_⟩
            have hlater := hnil.drop (min n.toNat xs.length - k)
            rw [List.drop_drop, Nat.add_sub_cancel' (Nat.le_min.2 ⟨hk, hlen⟩), List.drop_nil] at hlater
            exact hlater.symm

/-- The next bytes of the stream, of which there are enough. -/
theorem receive_next {n : Int} {k : Nat} (hn : 0 ≤ n) (hlen : n.toNat ≤ xs.length)
    (hserve : MayServe xs ⟨.receiveByte n, k⟩) (hwhole : ServedWhole ⟨xs, s.returned⟩ ⟨.receiveByte n, k⟩) :
    (receive ⟨.receiveByte n, k⟩ xs).1 = .ok (.bytes ((xs.take n.toNat).map charToByte)) := by
  obtain ⟨hout, -⟩ := (receive_eq_whole_iff (s := s) hserve).2 hwhole
  rw [hout]
  dsimp only
  rw [receive_whole_byte hn, readAt_zero_of_le hlen]

/-! ## Runs -/

theorem calls_cons (s : Receiver) (e : Served) (h : History Receiver Served) :
    calls ((s, e) :: h) = calls h ++ [e.call] := by
  unfold calls
  rw [List.map_cons, List.reverse_cons]

/-- What calls return does not depend on how the stream arrives exactly in those runs in which each bulk read returns
all that it is asked for (or is followed by nothing but zeros). -/
theorem arrivalFree_iff (hrun : Run Step ⟨xs, []⟩ h s) :
    Along (ArrivalFree xs) h s ↔ StepsMeet (fun _ s e => ServedWhole s e) h := by
  refine Run.along_iff_stepsMeet ⟨fun _ => rfl, nofun⟩ ?_ hrun
  rintro h s e s' - hfree ⟨hserve, rfl⟩
  -- What later calls can tell is what was returned and what is left.
  have hsame : ∀ s : Receiver, ∀ cs : List Receive, (∀ later : List Receive, (later.foldl atOnce s).returned =
      ((cs ++ later).foldl atOnce ⟨xs, []⟩).returned) ↔ s.returned = (cs.foldl atOnce ⟨xs, []⟩).returned ∧
        Alike '\x00' s.unread (cs.foldl atOnce ⟨xs, []⟩).unread := by
    intro s cs
    rw [← indistinguishable_iff]
    simp only [List.foldl_append]
  obtain ⟨hreturned, hunread⟩ := (hsame s (calls h)).1 hfree.same
  -- The whole stream, one call further.
  obtain ⟨hout, hrest⟩ := receive_alike hunread e.call
  have hstep : (calls ((s, e) :: h)).foldl atOnce ⟨xs, []⟩ = ((calls h).foldl atOnce ⟨xs, []⟩).atOnce e.call := by
    rw [calls_cons, List.foldl_append, List.foldl_cons, List.foldl_nil]
  have hone : (∀ later : List Receive, (later.foldl atOnce (s.perform e)).returned =
      ((calls ((s, e) :: h) ++ later).foldl atOnce ⟨xs, []⟩).returned) ↔ ServedWhole s e := by
    rw [hsame, hstep, returned_atOnce, unread_atOnce, ← hreturned, ← hout]
    rw [← receive_eq_whole_iff (s := s) hserve]
    refine and_congr ?_ ⟨fun h => h.trans hrest.symm, fun h => h.trans hrest⟩
    rw [perform, List.append_cancel_left_eq, List.singleton_inj]
  constructor
  · exact fun hfree' => hone.1 hfree'.same
  · intro hwhole
    refine ⟨hone.2 hwhole, ?_⟩
    rintro s₀ n count heq hn hlen
    obtain ⟨rfl, rfl⟩ := Prod.mk.inj (Option.some.inj heq)
    exact congrArg (fun r => s.returned ++ [r]) (receive_next (s := s) hn hlen hserve hwhole)

theorem arrivalFree_two_reads : ∃ h s, Run Step ⟨"ab cd".toList, []⟩ h s ∧ h.length = 2 ∧
    Along (ArrivalFree "ab cd".toList) h s := by
  have hstart : Run Step ⟨"ab cd".toList, []⟩ [] ⟨"ab cd".toList, []⟩ := .start
  have hrun := (hstart.next (e := ⟨.receiveByte 3, 3⟩) ⟨by decide, rfl⟩).next (e := ⟨.receiveByte 2, 2⟩) ⟨by decide, rfl⟩
  exact ⟨_, _, hrun, rfl, (arrivalFree_iff hrun).2 (by decide)⟩

/-- A piece of two bytes that arrives in two parts. -/
theorem piece_received_in_parts : ∃ h s, Run Step ⟨"ab] ".toList, []⟩ h s ∧
    ¬ Along (ArrivalFree "ab] ".toList) h s := by
  have hstart : Run Step ⟨"ab] ".toList, []⟩ [] ⟨"ab] ".toList, []⟩ := .start
  have hrun := hstart.next (e := ⟨.receiveByte 2, 1⟩) ⟨by decide, rfl⟩
  refine ⟨_, _, hrun, fun hfree => ?_⟩
  have hreturned := hfree.last.same []
  revert hreturned
  decide

/-! ## The calls on a port -/

section Port

variable {fm : FileManager} {out : List Char} {p' : Port FileManager Char}

theorem untilLoop_of_untilText {t : List Char} {i : Nat} {w rest : List Char} (htext : untilText t i xs = some (w, rest))
    (sb : CString) : untilLoop t i sb xs = (sb ++ w, rest) := by
  -- The text is cut at the size of the buffer, as the loop is.
  induction i generalizing xs w sb with
  | zero =>
      obtain ⟨rfl, rfl⟩ := Prod.mk.inj (Option.some.inj htext)
      rw [untilLoop, List.append_nil]
  | succ i ih =>
      cases xs with
      | nil => cases htext
      | cons c xs =>
          rw [untilText] at htext
          have hhead : (c :: xs)[0]?.getD '\x00' = c := rfl
          unfold untilLoop
          dsimp only
          rw [hhead, List.drop_one, List.tail_cons]
          by_cases hstop : t.contains c = true
          · rw [if_pos hstop] at htext ⊢
            obtain ⟨rfl, rfl⟩ := Prod.mk.inj (Option.some.inj htext)
            rw [List.append_nil]
          · rw [if_neg hstop] at htext ⊢
            obtain ⟨⟨w', rest'⟩, htext', heq⟩ := Option.map_eq_some_iff.1 htext
            obtain ⟨rfl, rfl⟩ := Prod.mk.inj heq
            rw [ih htext', List.append_assoc, List.singleton_append]

/-- On a stream that has enough, `receiveUntil` is the loop above. -/
theorem receive_whole_of_receiveUntil {t : List Char} {r : Except JavaError CString}
    (hcall : Socket.receiveUntil t ⟨fm, xs, out⟩ = some (r, p')) :
    receive (whole xs (.receiveUntil t)) xs = (r.map Received.text, p'.input) := by
  rw [receiveUntil_run] at hcall
  obtain ⟨⟨w, rest⟩, htext, heq⟩ := Option.map_eq_some_iff.1 hcall
  obtain ⟨rfl, rfl⟩ := Prod.mk.inj heq
  rw [whole, receive_until, untilLoop_of_untilText htext]
  rfl

/-- On a stream that has enough, `receiveByte` takes what it is asked for. -/
theorem receive_whole_of_receiveByte {n : Int} {r : Except JavaError (List UInt8)}
    (hcall : Socket.receiveByte n ⟨fm, xs, out⟩ = some (r, p')) :
    receive (whole xs (.receiveByte n)) xs = (r.map Received.bytes, p'.input) := by
  rcases receiveByte_run_inv hcall with ⟨hneg, rfl, rfl⟩ | ⟨⟨hn, hlen⟩, rfl, rfl⟩
  · exact if_pos hneg
  · rw [receive_whole_byte hn, readAt_zero_of_le hlen, Nat.min_eq_left hlen]
    rfl

end Port

end Receiver

end JavaClient
end Raiezau
