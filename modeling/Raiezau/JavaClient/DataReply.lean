import Raiezau.JavaClient.Framing

/-!
# DataReply — what a client takes from the reply to `getpieces`

Here the stream is whatever the reads of the client return one after the other, and nothing is known of who wrote
it.  `broughtPieces` reads the pieces off it that reach `writePiece`, and the file they go to; a call of
`doGetpieces` that ends has written these, one after the other, and done nothing else to the files
(`doGetpieces_brings`).
-/

namespace Raiezau
namespace JavaClient

open CUtil Machine Assoc Bytes Socket Peer

variable {fm : FileManager} {file f : File} {k : CString} {xs out : List Char} {s : FileManager}

/-! ## Reading a stream -/

/-- At most `n` characters up to one of `t`, which is taken from the stream. -/
def untilText (t : List Char) : Nat → List Char → Option (CString × List Char)
  | 0, xs => some ([], xs)
  | _ + 1, [] => none
  | n + 1, c :: xs => if t.contains c then some ([], xs) else (untilText t n xs).map fun q => (c :: q.1, q.2)

def wordText (xs : List Char) : Option (CString × List Char) := untilText [' ', '\n'] maxBufferSize xs

theorem receiveUntilLoop_run (t : List Char) (n : Nat) (sb : CString) (xs : List Char) :
    receiveUntilLoop t n sb ⟨s, xs, out⟩ =
      (untilText t n xs).map fun q => (.ok (sb ++ q.1), ⟨s, q.2, out⟩) := by
  -- A character at a time; the loop ends at a delimiter, or when its buffer is full.
  induction n generalizing sb xs with
  | zero =>
      rw [untilText, Option.map_some, List.append_nil]
      rfl
  | succ n ih =>
      cases xs with
      | nil => rfl
      | cons c xs =>
          have hread : (Proc.read : SocketM Char) ⟨s, c :: xs, out⟩ = some (.ok c, ⟨s, xs, out⟩) := rfl
          rw [receiveUntilLoop, Proc.bind_run_ok hread, untilText]
          by_cases hc : t.contains c = true
          · rw [if_pos hc, if_pos hc, Option.map_some, List.append_nil]
            rfl
          · rw [if_neg hc, if_neg hc, ih, Option.map_map]
            refine congrArg (fun g => Option.map g (untilText t n xs)) (funext fun q => ?_)
            simp only [Function.comp, List.append_assoc, List.singleton_append]

theorem receiveUntil_run (t : List Char) (xs : List Char) : receiveUntil t ⟨s, xs, out⟩ =
    (untilText t maxBufferSize xs).map fun q => (.ok q.1, ⟨s, q.2, out⟩) :=
  receiveUntilLoop_run t maxBufferSize [] xs

theorem receiveWord_run (s : FileManager) (xs out : List Char) : receiveWord ⟨s, xs, out⟩ =
    (wordText xs).map fun q => (.ok q.1, ⟨s, q.2, out⟩) :=
  receiveUntil_run _ _

/-- Bytes are read if there are enough; a negative number of them throws. -/
theorem receiveByte_run_inv {n : Int} {r : Except JavaError (List UInt8)} {p' : Port FileManager Char}
    (h : receiveByte n ⟨s, xs, out⟩ = some (r, p')) :
    (n < 0 ∧ r = .error .negativeArraySize ∧ p' = ⟨s, xs, out⟩) ∨
      ((0 ≤ n ∧ n.toNat ≤ xs.length) ∧ r = .ok ((xs.take n.toNat).map charToByte) ∧
        p' = ⟨s, xs.drop n.toNat, out⟩) := by
  unfold receiveByte at h
  by_cases hn : n < 0
  · rw [if_pos hn] at h
    obtain ⟨rfl, rfl⟩ := Prod.mk.inj (Option.some.inj h)
    exact .inl ⟨hn, rfl, rfl⟩
  · rw [if_neg hn] at h
    by_cases hlen : n.toNat ≤ xs.length
    · have hread : (Proc.readMany n.toNat : SocketM (List Char)) ⟨s, xs, out⟩ =
          some (.ok (xs.take n.toNat), ⟨s, xs.drop n.toNat, out⟩) := if_pos hlen
      rw [Proc.bind_run_ok hread] at h
      obtain ⟨rfl, rfl⟩ := Prod.mk.inj (Option.some.inj h)
      exact .inr ⟨⟨Int.not_lt.1 hn, hlen⟩, rfl, rfl⟩
    · have hread : (Proc.readMany n.toNat : SocketM (List Char)) ⟨s, xs, out⟩ = none := if_neg hlen
      rw [Proc.bind_run_none hread] at h
      cases h

/-! ## The pieces of a reply -/

/-- The file that a `data` message is for, and what follows its bracket. -/
def dataHeader (fm : FileManager) (xs : List Char) : Option (File × List Char) := do
  let protocolKey ← wordText xs
  if protocolKey.1 = "data".toList then
    let hash ← wordText protocolKey.2
    let file ← fm.lookup hash.1
    if 1 ≤ hash.2.length then some (file, hash.2.drop 1) else none
  else none

/-- The next piece of a message, with its index. -/
def nextPiece (pieceSize : Int) (xs : List Char) : Option ((Int × List UInt8) × List Char) := do
  let (str, xs) ← untilText [':', ' ', '\n'] maxBufferSize xs
  if str = [']'] then none
  else
    let index ← (parseInt str).toOption
    if 0 ≤ pieceSize ∧ pieceSize.toNat ≤ xs.length then
      some ((index, (xs.take pieceSize.toNat).map charToByte), xs.drop pieceSize.toNat)
    else none

/-- The pieces handed to `writePiece`: the first one that it throws on is the last. -/
def takenPieces (pieceSize : Int) : Nat → File → List Char → List (Int × List UInt8)
  | 0, _, _ => []
  | n + 1, f, xs =>
      match nextPiece pieceSize xs with
      | none => []
      | some (piece, xs) =>
          piece ::
            match f.writePiece piece.1 piece.2 with
            | .ok f' => takenPieces pieceSize n f' xs
            | .error _ => []

section Taken

variable {pieceSize i : Int} {n : Nat} {data : List UInt8} {f' : File} {rest : List Char}

theorem takenPieces_of_none (h : nextPiece pieceSize xs = none) : takenPieces pieceSize (n + 1) f xs = [] := by
  rw [takenPieces, h]

theorem takenPieces_of_error (h : nextPiece pieceSize xs = some ((i, data), rest)) {e : JavaError}
    (hw : f.writePiece i data = .error e) : takenPieces pieceSize (n + 1) f xs = [(i, data)] := by
  rw [takenPieces, h]
  simp only [hw]

theorem takenPieces_of_ok (h : nextPiece pieceSize xs = some ((i, data), rest))
    (hw : f.writePiece i data = .ok f') :
    takenPieces pieceSize (n + 1) f xs = (i, data) :: takenPieces pieceSize n f' rest := by
  rw [takenPieces, h]
  simp only [hw]

end Taken

theorem length_of_nextPiece {pieceSize i : Int} {data : List UInt8} {rest : List Char}
    (h : nextPiece pieceSize xs = some ((i, data), rest)) : pieceSize = data.length := by
  unfold nextPiece at h
  simp only [Option.bind_eq_bind, Option.bind_eq_some_iff] at h
  obtain ⟨q, -, h⟩ := h
  by_cases hend : q.1 = [']']
  · rw [if_pos hend] at h
    cases h
  · rw [if_neg hend, Option.bind_eq_some_iff] at h
    obtain ⟨index, -, h⟩ := h
    by_cases hbytes : 0 ≤ pieceSize ∧ pieceSize.toNat ≤ q.2.length
    · rw [if_pos hbytes] at h
      obtain ⟨-, rfl⟩ := Prod.mk.inj (Prod.mk.inj (Option.some.inj h)).1
      rw [List.length_map, List.length_take]
      omega
    · rw [if_neg hbytes] at h
      cases h

theorem length_of_mem_takenPieces {pieceSize : Int} {n : Nat} {x : Int × List UInt8}
    (h : x ∈ takenPieces pieceSize n f xs) : pieceSize = x.2.length := by
  induction n generalizing f xs with
  | zero => cases h
  | succ n ih =>
      cases hnext : nextPiece pieceSize xs with
      | none =>
          rw [takenPieces_of_none hnext] at h
          cases h
      | some q =>
          obtain ⟨⟨i, data⟩, rest⟩ := q
          have hlen := length_of_nextPiece hnext
          cases hw : f.writePiece i data with
          | error e =>
              rw [takenPieces_of_error hnext hw] at h
              rwa [List.mem_singleton.1 h]
          | ok f' =>
              rw [takenPieces_of_ok hnext hw] at h
              rcases List.mem_cons.1 h with rfl | hmem
              · exact hlen
              · exact ih hmem

/-- The pieces of a reply, and the file they go to. -/
def broughtPieces (fm : FileManager) (xs : List Char) : Option (File × List (Int × List UInt8)) :=
  (dataHeader fm xs).map fun q => (q.1, takenPieces q.1.pieceSize (q.2.length + 1) q.1 q.2)

/-- Pieces written into a file in order, each leaving behind what it does. -/
def File.writtenPieces (f : File) (pieces : List (Int × List UInt8)) : File :=
  pieces.foldl (fun f x => f.writtenPiece x.1 x.2) f

/-! ## What a call does -/

/-- A write does not concern the description of a file. -/
theorem File.writtenPiece_key (f : File) (i : Int) (data : List UInt8) : (f.writtenPiece i data).key = f.key ∧
    (f.writtenPiece i data).length = f.length ∧ (f.writtenPiece i data).pieceSize = f.pieceSize := by
  unfold File.writtenPiece
  dsimp only
  split
  · exact ⟨rfl, rfl, rfl⟩
  · split
    · exact ⟨rfl, rfl, rfl⟩
    · exact ⟨rfl, rfl, rfl⟩

theorem writePiece_run (hf : s.lookup file.key = some f) (i : Int) (data : List UInt8) (xs out : List Char) :
    Peer.writePiece file i data ⟨s, xs, out⟩ = some ((f.writePiece i data).map fun _ => (),
      ⟨s.update file.key fun _ => f.writtenPiece i data, xs, out⟩) := by
  have hget : (Proc.getState : SocketM FileManager) ⟨s, xs, out⟩ = some (.ok s, ⟨s, xs, out⟩) := rfl
  rw [Peer.writePiece, Proc.bind_run_ok hget, hf]
  rfl

theorem writePass_run {i : Int} {data : List UInt8} (hf : s.lookup file.key = some f) (xs : List Char) :
    (Peer.writePiece file i data >>= fun _ => pure (.inl ()) : SocketM (Unit ⊕ Unit)) ⟨s, xs, out⟩ =
      some ((f.writePiece i data).map fun _ => .inl (),
        ⟨s.update file.key fun _ => f.writtenPiece i data, xs, out⟩) := by
  have hrun := writePiece_run hf i data xs out
  cases hwrite : f.writePiece i data with
  | error e =>
      rw [hwrite] at hrun
      exact Proc.bind_run_error hrun
  | ok f' =>
      rw [hwrite] at hrun
      exact Proc.bind_run_ok hrun

/-- One pass of the loop: there is no piece, and the files stay as they are, or a piece is handed on. -/
theorem receivePiece_run_inv {r : Except JavaError (Unit ⊕ Unit)} {p' : Port FileManager Char}
    (h : receivePiece file () ⟨s, xs, out⟩ = some (r, p')) :
    (nextPiece file.pieceSize xs = none ∧ p'.state = s ∧ r ≠ .ok (.inl ())) ∨
      ∃ i data rest, nextPiece file.pieceSize xs = some ((i, data), rest) ∧
        (Peer.writePiece file i data >>= fun _ => pure (.inl ())) ⟨s, rest, out⟩ = some (r, p') := by
  unfold receivePiece at h
  rcases Proc.bind_run_inv h with ⟨e, hword, -⟩ | ⟨str, p₁, hword, h⟩
  · rw [receiveUntil_run] at hword
    obtain ⟨q, -, heq⟩ := Option.map_eq_some_iff.1 hword
    cases (Prod.mk.inj heq).1
  · rw [receiveUntil_run] at hword
    obtain ⟨⟨str', xs₁⟩, hq, heq⟩ := Option.map_eq_some_iff.1 hword
    obtain ⟨hstr, rfl⟩ := Prod.mk.inj heq
    obtain rfl : str' = str := Except.ok.inj hstr
    have hnext : nextPiece file.pieceSize xs = if str' = [']'] then none else
        (parseInt str').toOption.bind fun index =>
          if 0 ≤ file.pieceSize ∧ file.pieceSize.toNat ≤ xs₁.length then
            some ((index, (xs₁.take file.pieceSize.toNat).map charToByte), xs₁.drop file.pieceSize.toNat)
          else none := by
      rw [nextPiece, hq]
      rfl
    dsimp only at h
    by_cases hend : str' = [']']
    · rw [if_pos hend] at h hnext
      obtain ⟨rfl, rfl⟩ := Prod.mk.inj (Option.some.inj h)
      exact .inl ⟨hnext, rfl, fun heq => nomatch Except.ok.inj heq⟩
    · rw [if_neg hend] at h hnext
      rcases Proc.bind_run_inv h with ⟨e, hparse, rfl⟩ | ⟨i, p₁, hparse, h⟩
      · obtain ⟨hval, rfl⟩ := Prod.mk.inj (Option.some.inj hparse)
        rw [hval] at hnext
        exact .inl ⟨hnext, rfl, fun heq => nomatch heq⟩
      · obtain ⟨hval, rfl⟩ := Prod.mk.inj (Option.some.inj hparse)
        rw [hval, Except.toOption, Option.bind_some] at hnext
        rcases Proc.bind_run_inv h with ⟨e, hbytes, rfl⟩ | ⟨data, p₁, hbytes, h⟩
        · rcases receiveByte_run_inv hbytes with ⟨hneg, -, rfl⟩ | ⟨-, hok, -⟩
          · exact .inl ⟨hnext.trans (if_neg fun hall => absurd hneg (Int.not_lt.2 hall.1)), rfl,
              fun heq => nomatch heq⟩
          · cases hok
        · rcases receiveByte_run_inv hbytes with ⟨-, hok, -⟩ | ⟨hlen, hdata, rfl⟩
          · cases hok
          · obtain rfl := Except.ok.inj hdata
            exact .inr ⟨i, _, _, hnext.trans (if_pos hlen), h⟩

/-- The loop that ends has written the pieces it took. -/
theorem receivePieces_state {n : Nat} {r : Except JavaError Unit} {p' : Port FileManager Char}
    (hf : s.lookup file.key = some f)
    (h : Proc.iterate (receivePiece file) n () ⟨s, xs, out⟩ = some (r, p')) :
    Replaces s file.key (f.writtenPieces (takenPieces file.pieceSize n f xs)) p'.state := by
  -- A pass that hands on a piece goes on with the file it has written.
  induction n generalizing s f xs with
  | zero => cases h
  | succ n ih =>
      rw [Proc.iterate] at h
      have hend : nextPiece file.pieceSize xs = none → p'.state = s →
          Replaces s file.key (f.writtenPieces (takenPieces file.pieceSize (n + 1) f xs)) p'.state := by
        intro hnone hstate
        rw [takenPieces_of_none hnone, hstate]
        exact ⟨hf, fun _ _ => rfl⟩
      rcases Proc.bind_run_inv h with ⟨e, hpass, rfl⟩ | ⟨next, p₁, hpass, h⟩
      · rcases receivePiece_run_inv hpass with ⟨hnone, hstate, -⟩ | ⟨i, data, rest, hsome, hwrite⟩
        · exact hend hnone hstate
        · rw [writePass_run hf] at hwrite
          obtain ⟨hfail, rfl⟩ := Prod.mk.inj (Option.some.inj hwrite)
          cases hw : f.writePiece i data with
          | ok f' =>
              rw [hw] at hfail
              cases hfail
          | error e' =>
              rw [takenPieces_of_error hsome hw]
              exact replaces_update hf
      · rcases receivePiece_run_inv hpass with ⟨hnone, hstate, hr⟩ | ⟨i, data, rest, hsome, hwrite⟩
        · cases next with
          | inl u => exact absurd rfl hr
          | inr u =>
              obtain ⟨rfl, rfl⟩ := Prod.mk.inj (Option.some.inj h)
              exact hend hnone hstate
        · rw [writePass_run hf] at hwrite
          obtain ⟨hpassed, rfl⟩ := Prod.mk.inj (Option.some.inj hwrite)
          cases hw : f.writePiece i data with
          | error e' =>
              rw [hw] at hpassed
              cases hpassed
          | ok f' =>
              rw [hw] at hpassed
              obtain rfl := Except.ok.inj hpassed
              obtain rfl := File.writtenPiece_of_ok hw
              rw [takenPieces_of_ok hsome hw]
              have hstep : Replaces s file.key (f.writtenPiece i data) _ := replaces_update hf
              exact hstep.trans (ih hstep.1 h)

/-- Every file is registered under its own key. -/
def KeyedFiles (fm : FileManager) : Prop := ∀ k f, fm.lookup k = some f → f.key = k

theorem checkProtocolKey_run (expected : CString) (xs : List Char) :
    FilePeer.checkProtocolKey expected ⟨s, xs, out⟩ = (wordText xs).map fun q =>
      (if q.1 = expected then .ok () else .error .invalidResponse, ⟨s, q.2, out⟩) := by
  have hword := receiveWord_run s xs out
  unfold FilePeer.checkProtocolKey
  cases hq : wordText xs with
  | none =>
      rw [hq] at hword
      rw [Proc.bind_run_none hword]
      rfl
  | some q =>
      rw [hq] at hword
      rw [Proc.bind_run_ok hword, Option.map_some]
      by_cases hkey : q.1 = expected
      · rw [if_pos hkey, if_pos hkey]
        rfl
      · rw [if_neg hkey, if_neg hkey]
        rfl

theorem getFileWithReception_run (xs : List Char) :
    getFileWithReception ⟨s, xs, out⟩ = (wordText xs).map fun q =>
      match s.lookup q.1 with
      | some file => (.ok file, ⟨s, q.2, out⟩)
      | none => (.error .noFile, ⟨s, q.2, out ++ "error\n".toList⟩) := by
  have hword := receiveWord_run s xs out
  unfold getFileWithReception receiveHash
  cases hq : wordText xs with
  | none =>
      rw [hq] at hword
      rw [Proc.bind_run_none hword]
      rfl
  | some q =>
      rw [hq] at hword
      have hget : (Proc.getState : SocketM FileManager) ⟨s, q.2, out⟩ = some (.ok s, ⟨s, q.2, out⟩) := rfl
      rw [Proc.bind_run_ok hword, Proc.bind_run_ok hget, Option.map_some]
      cases s.lookup q.1 <;> rfl

/-- The files after a reply: the pieces it brought are written. -/
def Brings (fm : FileManager) (xs : List Char) (s : FileManager) : Prop :=
  match broughtPieces fm xs with
  | none => s = fm
  | some (f, pieces) => Replaces fm f.key (f.writtenPieces pieces) s

theorem brings_of_none (h : dataHeader fm xs = none) : Brings fm xs fm := by
  rw [Brings, broughtPieces, h]
  rfl

/-- The file of a reply is one of the local files, and the pieces have its size. -/
theorem broughtPieces_spec (hkeys : KeyedFiles fm) {pieces : List (Int × List UInt8)}
    (h : broughtPieces fm xs = some (f, pieces)) :
    fm.lookup f.key = some f ∧ ∀ x ∈ pieces, f.pieceSize = x.2.length := by
  obtain ⟨⟨f', rest⟩, hheader, heq⟩ := Option.map_eq_some_iff.1 h
  obtain ⟨rfl, rfl⟩ := Prod.mk.inj heq
  refine ⟨?_, fun x hx => length_of_mem_takenPieces hx⟩
  simp only [dataHeader, Option.bind_eq_bind, Option.bind_eq_some_iff] at hheader
  obtain ⟨q, -, hheader⟩ := hheader
  -- The keyword, the key of a local file, and the bracket before the pieces.
  by_cases hd : q.1 = "data".toList
  · rw [if_pos hd] at hheader
    simp only [Option.bind_eq_some_iff] at hheader
    obtain ⟨w, -, g, hg, hheader⟩ := hheader
    by_cases hbracket : 1 ≤ w.2.length
    · rw [if_pos hbracket] at hheader
      obtain ⟨rfl, -⟩ := Prod.mk.inj (Option.some.inj hheader)
      rw [hkeys _ _ hg, hg]
    · rw [if_neg hbracket] at hheader
      cases hheader
  · rw [if_neg hd] at hheader
    cases hheader

theorem receiveData_brings (hkeys : KeyedFiles fm) {r : Except JavaError Unit} {p' : Port FileManager Char}
    (h : (FilePeer.checkProtocolKey "data".toList >>= fun _ => receiveData) ⟨fm, xs, out⟩ = some (r, p')) :
    Brings fm xs p'.state := by
  rcases Proc.bind_run_inv h with ⟨e, hkey, rfl⟩ | ⟨u, p₁, hkey, h⟩
  · rw [checkProtocolKey_run] at hkey
    obtain ⟨q, hq, heq⟩ := Option.map_eq_some_iff.1 hkey
    obtain ⟨hres, rfl⟩ := Prod.mk.inj heq
    have hne : q.1 ≠ "data".toList := by
      intro hd
      rw [if_pos hd] at hres
      cases hres
    refine brings_of_none ?_
    rw [dataHeader, hq, Option.bind_eq_bind, Option.bind_some, if_neg hne]
  · rw [checkProtocolKey_run] at hkey
    obtain ⟨q, hq, heq⟩ := Option.map_eq_some_iff.1 hkey
    obtain ⟨hres, rfl⟩ := Prod.mk.inj heq
    have hd : q.1 = "data".toList := by
      by_contra hne
      rw [if_neg hne] at hres
      cases hres
    have hheader : dataHeader fm xs = (wordText q.2).bind fun w => (fm.lookup w.1).bind fun file =>
        if 1 ≤ w.2.length then some (file, w.2.drop 1) else none := by
      rw [dataHeader, hq, Option.bind_eq_bind, Option.bind_some, if_pos hd]
      rfl
    unfold receiveData at h
    rcases Proc.bind_run_inv h with ⟨e, hfile, rfl⟩ | ⟨file, p₂, hfile, h⟩
    · rw [getFileWithReception_run] at hfile
      obtain ⟨w, hw, heq⟩ := Option.map_eq_some_iff.1 hfile
      rw [hw, Option.bind_some] at hheader
      cases hl : fm.lookup w.1 with
      | some file =>
          rw [hl] at heq
          cases (Prod.mk.inj heq).1
      | none =>
          rw [hl] at heq hheader
          obtain ⟨-, rfl⟩ := Prod.mk.inj heq
          exact brings_of_none hheader
    · rw [getFileWithReception_run] at hfile
      obtain ⟨w, hw, heq⟩ := Option.map_eq_some_iff.1 hfile
      rw [hw, Option.bind_some] at hheader
      cases hl : fm.lookup w.1 with
      | none =>
          rw [hl] at heq
          cases (Prod.mk.inj heq).1
      | some file' =>
          rw [hl] at heq hheader
          obtain ⟨hres, rfl⟩ := Prod.mk.inj heq
          obtain rfl : file' = file := Except.ok.inj hres
          rw [Option.bind_some] at hheader
          rcases Proc.bind_run_inv h with ⟨e, hbyte, rfl⟩ | ⟨b, p₃, hbyte, h⟩
          · rcases receiveByte_run_inv hbyte with ⟨hneg, -⟩ | ⟨-, hok, -⟩
            · cases hneg
            · cases hok
          · rcases receiveByte_run_inv hbyte with ⟨hneg, -⟩ | ⟨⟨-, hlen⟩, -, rfl⟩
            · cases hneg
            · have hbracket : 1 ≤ w.2.length := hlen
              rw [if_pos hbracket] at hheader
              have hlookup : fm.lookup file'.key = some file' := by rw [hkeys _ _ hl, hl]
              rw [Brings, broughtPieces, hheader]
              exact receivePieces_state hlookup h

/-- A call that ends has written the pieces of the reply, and nothing else has happened to the files. -/
theorem doGetpieces_brings (hkeys : KeyedFiles fm) {index : List Int} {r : Except JavaError Unit}
    {p' : Port FileManager Char} (h : FilePeer.doGetpieces file index ⟨fm, xs, out⟩ = some (r, p')) :
    Brings fm xs p'.state := by
  rw [FilePeer.doGetpieces] at h
  have hgives : Transfers (sendGetpieces file index) fm [] (.ok ()) (getpiecesText file.key index) fm :=
    sendGetpieces_spec
  have hsend := hgives xs out
  rw [List.nil_append] at hsend
  rw [Proc.bind_run_ok hsend] at h
  unfold FilePeer.handleDataReception at h
  rcases Proc.tryCatch_run_inv h with ⟨a, hdata, -⟩ | ⟨e, p₁, hdata, hhandler⟩
  · exact receiveData_brings hkeys hdata
  · have hstate : p'.state = p₁.state := by
      cases e <;> (obtain ⟨-, rfl⟩ := Prod.mk.inj (Option.some.inj hhandler); rfl)
    rw [hstate]
    exact receiveData_brings hkeys hdata

end JavaClient
end Raiezau
