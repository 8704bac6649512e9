import Raiezau.JavaClient.File

/-!
# Strategy — what the Java client chooses to download

`StrategyAdvanced`.  `chooseParts` draws part numbers and keeps those that are not marked in the map of the peer, the
parts that the peer does not have.
-/

namespace Raiezau
namespace JavaClient

open CUtil

variable {f file : File} {bm : BufferMap} {random : Nat → Int} {index parts : List Int} {r part : Int} {k i : Nat}

/-! ## Model -/

def maxBcl : Nat := 50

def maxParts : Nat := 5

/-- `Math.abs`: the least `int` stays negative. -/
def mathAbs (n : Int) : Int := toInt32 n.natAbs

/-- The remainder of `int`s has the sign of the dividend. -/
def remainder (n m : Int) : Except JavaError Int := if m = 0 then .error .arithmetic else .ok (n.tmod m)

/-- `chooseFile`. -/
def chooseFile : List File → Except JavaError File
  | [] => .error .noFile
  | file :: files => if !file.seeded then .ok file else chooseFile files

/-- One pass of the loop, with the value that `nextInt` returns: what is added to `index`. -/
def choosePart (file : File) (bm : BufferMap) (next : Int) : Except JavaError (List Int) := do
  let part ← remainder (mathAbs next) (← file.getPieceCount)
  if !(← bm.isCompleted part) then pure [part] else pure []

/-- The loop from its pass `i` on, `k` passes before `MAX_BCL`. -/
def choosePartsLoop (file : File) (bm : BufferMap) (random : Nat → Int) :
    Nat → Nat → List Int → Except JavaError (List Int)
  | 0, _, index => .ok index
  | k + 1, i, index =>
      if index.length < maxParts then do
        let added ← choosePart file bm (random i)
        choosePartsLoop file bm random k (i + 1) (index ++ added)
      else .ok index

/-- `chooseParts(peer)`, for a peer of `file` with the map `bm`; `random` is what `nextInt` returns. -/
def chooseParts (file : File) (bm : BufferMap) (random : Nat → Int) : Except JavaError (List Int) := do
  let index ← choosePartsLoop file bm random maxBcl 0 []
  if index.length = 0 then throw .noPart
  pure index

/-- A part that is worth asking the peer for. -/
structure Useful (file : File) (bm : BufferMap) (part : Int) : Prop where
  inRange : ∃ n, file.getPieceCount = .ok n ∧ 0 ≤ part ∧ part < n
  offered : bm.isCompleted part = .ok true
  wanted : file.bufferMap.isCompleted part = .ok false

/-- The choice is none, or some useful parts. -/
def Sensible (file : File) (bm : BufferMap) (choice : Except JavaError (List Int)) : Prop :=
  choice = .error .noPart ∨ ∃ parts, choice = .ok parts ∧ parts ≠ [] ∧ parts.length ≤ maxParts ∧
    ∀ part ∈ parts, Useful file bm part

/-- The part drawn is one that the peer has. -/
def DrawsOffered (file : File) (bm : BufferMap) (next : Int) : Prop :=
  ∃ n, file.getPieceCount = .ok n ∧ n ≠ 0 ∧ bm.isCompleted ((mathAbs next).tmod n) = .ok true

/-! ## One draw -/

theorem choosePart_eq_ok_iff : choosePart file bm r = .ok index ↔
    ∃ n, file.getPieceCount = .ok n ∧ n ≠ 0 ∧ ∃ x, bm.isCompleted ((mathAbs r).tmod n) = .ok x ∧
      index = if x then [] else [(mathAbs r).tmod n] := by
  unfold choosePart
  cases file.getPieceCount with
  | error e => exact iff_of_false nofun fun ⟨n, hn, _⟩ => nomatch hn
  | ok n =>
      -- A file without pieces throws in the remainder.
      by_cases hzero : n = 0
      · rw [ok_bind, remainder, if_pos hzero]
        refine iff_of_false nofun ?_
        rintro ⟨n', hn, hne, -⟩
        exact hne ((Except.ok.inj hn).symm.trans hzero)
      · rw [ok_bind, remainder, if_neg hzero, ok_bind]
        constructor
        · intro h
          refine ⟨n, rfl, hzero, ?_⟩
          cases hbit : bm.isCompleted ((mathAbs r).tmod n) with
          | error e =>
              rw [hbit] at h
              cases h
          | ok x =>
              rw [hbit, ok_bind] at h
              refine ⟨x, rfl, ?_⟩
              cases x <;> exact (Except.ok.inj h).symm
        · rintro ⟨n', hn, -, x, hbit, rfl⟩
          obtain rfl := Except.ok.inj hn
          rw [hbit, ok_bind]
          cases x <;> rfl

theorem choosePart_eq_nil_iff : choosePart file bm r = .ok [] ↔ DrawsOffered file bm r := by
  rw [choosePart_eq_ok_iff]
  refine exists_congr fun n => and_congr_right fun _ => and_congr_right fun _ => ?_
  constructor
  · rintro ⟨x, hbit, hnil⟩
    cases x with
    | true => exact hbit
    | false => cases hnil
  · exact fun hbit => ⟨true, hbit, rfl⟩

/-- What is added is not marked in the map of the peer. -/
theorem not_offered_of_mem_choosePart (h : choosePart file bm r = .ok index) (hpart : part ∈ index) :
    bm.isCompleted part = .ok false := by
  obtain ⟨n, -, -, x, hbit, rfl⟩ := choosePart_eq_ok_iff.1 h
  cases x with
  | true =>
      rw [if_pos rfl] at hpart
      cases hpart
  | false =>
      rw [if_neg Bool.false_ne_true, List.mem_singleton] at hpart
      exact (congrArg bm.isCompleted hpart).trans hbit

theorem choosePart_ne_noPart : choosePart file bm r ≠ .error .noPart := by
  intro h
  unfold choosePart File.getPieceCount pieceCountOf at h
  -- What is thrown in a pass is of another kind: the size or the number of pieces is zero, or the map is too short.
  split at h
  · cases h
  · rw [ok_bind, remainder] at h
    split at h
    · cases h
    · next n hn =>
        rw [ok_bind] at h
        cases hbit : bm.isCompleted ((mathAbs r).tmod _) with
        | error e =>
            obtain rfl := BitSet.test_error hbit
            rw [hbit] at h
            cases h
        | ok x =>
            rw [hbit, ok_bind] at h
            cases x <;> cases h

/-! ## The loop -/

/-- The loop only appends. -/
theorem prefix_of_choosePartsLoop (h : choosePartsLoop file bm random k i index = .ok parts) : index <+: parts := by
  induction k generalizing i index with
  | zero =>
      obtain rfl := Except.ok.inj h
      exact List.prefix_refl _
  | succ k ih =>
      unfold choosePartsLoop at h
      split at h
      · cases hpart : choosePart file bm (random i) with
        | error e =>
            rw [hpart] at h
            cases h
        | ok added =>
            rw [hpart, ok_bind] at h
            exact (List.prefix_append index added).trans (ih h)
      · obtain rfl := Except.ok.inj h
        exact List.prefix_refl _

theorem not_offered_of_mem_choosePartsLoop (h : choosePartsLoop file bm random k i index = .ok parts)
    (hindex : ∀ part ∈ index, bm.isCompleted part = .ok false) :
    ∀ part ∈ parts, bm.isCompleted part = .ok false := by
  induction k generalizing i index with
  | zero =>
      obtain rfl := Except.ok.inj h
      exact hindex
  | succ k ih =>
      unfold choosePartsLoop at h
      split at h
      · cases hpart : choosePart file bm (random i) with
        | error e =>
            rw [hpart] at h
            cases h
        | ok added =>
            rw [hpart, ok_bind] at h
            refine ih h fun part hmem => ?_
            rcases List.mem_append.1 hmem with hold | hnew
            · exact hindex part hold
            · exact not_offered_of_mem_choosePart hpart hnew
      · obtain rfl := Except.ok.inj h
        exact hindex

/-- Nothing is chosen if and only if every draw falls on a part of the peer. -/
theorem choosePartsLoop_eq_nil_iff : choosePartsLoop file bm random k i [] = .ok [] ↔
    ∀ j < k, DrawsOffered file bm (random (i + j)) := by
  -- While nothing has been added the loop does not stop early: all `k` passes are made.
  induction k generalizing i with
  | zero => exact iff_of_true rfl fun j hj => absurd hj (Nat.not_lt_zero j)
  | succ k ih =>
      have hsplit : (∀ j < k + 1, DrawsOffered file bm (random (i + j))) ↔
          DrawsOffered file bm (random i) ∧ ∀ j < k, DrawsOffered file bm (random (i + 1 + j)) := by
        rw [Nat.forall_lt_succ_left]
        simp only [Nat.add_zero, Nat.add_assoc, Nat.add_comm 1]
      have hpass : choosePartsLoop file bm random (k + 1) i [] =
          choosePart file bm (random i) >>= fun added => choosePartsLoop file bm random k (i + 1) added := rfl
      rw [hsplit, ← ih, ← choosePart_eq_nil_iff, hpass]
      constructor
      · intro h
        cases hpart : choosePart file bm (random i) with
        | error e =>
            rw [hpart] at h
            cases h
        | ok added =>
            rw [hpart, ok_bind] at h
            obtain rfl := List.prefix_nil.1 (prefix_of_choosePartsLoop h)
            exact ⟨rfl, h⟩
      · rintro ⟨hpart, hrest⟩
        rw [hpart, ok_bind, hrest]

theorem choosePartsLoop_ne_noPart : choosePartsLoop file bm random k i index ≠ .error .noPart := by
  induction k generalizing i index with
  | zero => exact nofun
  | succ k ih =>
      unfold choosePartsLoop
      split
      · cases hpart : choosePart file bm (random i) with
        | error e =>
            intro h
            exact choosePart_ne_noPart (hpart.trans (congrArg Except.error (Except.error.inj h)))
        | ok added => exact ih
      · exact nofun

/-! ## The choice -/

/-- The choice of parts is sensible exactly when there is none to make: the parts are those the peer lacks. -/
theorem chooseParts_sensible_iff : Sensible file bm (chooseParts file bm random) ↔
    ∀ i < maxBcl, DrawsOffered file bm (random i) := by
  have hnone : (∀ i < maxBcl, DrawsOffered file bm (random i)) ↔
      choosePartsLoop file bm random maxBcl 0 [] = .ok [] := by
    rw [choosePartsLoop_eq_nil_iff]
    simp only [Nat.zero_add]
  rw [hnone]
  unfold chooseParts
  cases hloop : choosePartsLoop file bm random maxBcl 0 [] with
  | error e =>
      refine iff_of_false ?_ nofun
      rintro (hnoPart | ⟨parts, hparts, -⟩)
      · exact choosePartsLoop_ne_noPart (hloop.trans (congrArg Except.error (Except.error.inj hnoPart)))
      · cases hparts
  | ok parts =>
      rw [ok_bind]
      by_cases hlen : parts.length = 0
      · rw [if_pos hlen]
        exact iff_of_true (.inl rfl) (congrArg Except.ok (List.length_eq_zero_iff.1 hlen))
      · rw [if_neg hlen]
        refine iff_of_false ?_ fun h => hlen (congrArg List.length (Except.ok.inj h))
        rintro (hnoPart | ⟨parts', hparts, hne, -, huseful⟩)
        · cases hnoPart
        · obtain rfl : parts = parts' := Except.ok.inj hparts
          -- Any part that was chosen is one the peer does not have.
          obtain ⟨part, hmem⟩ := List.exists_mem_of_ne_nil parts hne
          have hmissing := not_offered_of_mem_choosePartsLoop hloop (fun _ h => absurd h List.not_mem_nil) part hmem
          rw [(huseful part hmem).offered] at hmissing
          cases hmissing

/-- A file of three parts, none of which is there. -/
def threeParts : File :=
  { name := "f".toList
    key := "k".toList
    length := 5
    seeded := false
    pieceSize := 2
    bufferMap := ⟨⟨[0]⟩⟩
    content := [] }

/-- Of a peer that has all three parts nothing is asked. -/
theorem chooseParts_sensible_seeder : Sensible threeParts ⟨⟨[0xFF]⟩⟩ (chooseParts threeParts ⟨⟨[0xFF]⟩⟩ fun _ => 4) := by
  refine chooseParts_sensible_iff.2 fun i _ => ⟨3, rfl, by decide, ?_⟩
  decide

/-- Of a peer that has no part at all five are asked. -/
theorem parts_of_nobody_chosen : threeParts.getPieceCount = .ok 3 ∧
    chooseParts threeParts ⟨⟨[0]⟩⟩ (fun _ => 4) = .ok [1, 1, 1, 1, 1] ∧
    ¬ Sensible threeParts ⟨⟨[0]⟩⟩ (chooseParts threeParts ⟨⟨[0]⟩⟩ fun _ => 4) := by
  have hchoice : chooseParts threeParts ⟨⟨[0]⟩⟩ (fun _ => 4) = .ok [1, 1, 1, 1, 1] := by decide
  refine ⟨rfl, hchoice, ?_⟩
  rw [hchoice]
  rintro (hnoPart | ⟨parts, hparts, -, -, huseful⟩)
  · cases hnoPart
  · obtain rfl := Except.ok.inj hparts
    have hoffered := (huseful 1 (by decide)).offered
    revert hoffered
    decide

/-- The file that is chosen is not seeded. -/
theorem chooseFile_unseeded {files : List File} (h : chooseFile files = .ok f) : f.seeded = false := by
  induction files with
  | nil => cases h
  | cons file files ih =>
      unfold chooseFile at h
      split at h
      · next hfile =>
          obtain rfl := Except.ok.inj h
          simpa using hfile
      · exact ih h

end JavaClient
end Raiezau
