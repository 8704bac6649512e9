import Mathlib.Algebra.Order.Floor.Div
import Raiezau.CTracker.Effects

/-!
# FileRegistry — what a sequence of `file_get_or_create` calls leaves in the registry

The first call with a key creates its file; the table by key, the lists by name and `file_list` all hold
exactly the files created so (`registry_coherent`).  `Coherent` is the invariant, indexed by the calls made.
-/

namespace Raiezau
namespace CTracker

open Memory CUtil Assoc

/-- `file_get_by_name`. -/
def fileGetByName (st : Tracker) (name : CString) : Option (List Addr) := htGetEntry st.fileByName name

/-- The files a lookup by name gives; a null list has none. -/
def filesNamed (st : Tracker) (name : CString) : List Addr := (fileGetByName st name).getD []

/-- The arguments of a call of `file_get_or_create`. -/
structure FileCall where
  filename : CString
  length : Int
  pieceSize : Int
  md5Str : CString
  deriving DecidableEq, Repr

namespace FileCall

def run (st : Tracker) (c : FileCall) : Option Tracker :=
  (fileGetOrCreate st c.filename c.length c.pieceSize c.md5Str).map Prod.fst

/-- The file that a call asks for: sizes are 32-bit values, and the pieces cover the length. -/
def file (c : FileCall) : File :=
  { filename := c.filename
    md5Str := c.md5Str
    length := toUInt32 c.length
    pieceCount := toUInt32 c.length ⌈/⌉ toUInt32 c.pieceSize
    pieceSize := toUInt32 c.pieceSize
    clients := htCreate }

end FileCall

def runCalls (st : Tracker) (calls : List FileCall) : Option Tracker := calls.foldlM FileCall.run st

def firstCall (calls : List FileCall) (key : CString) : Option FileCall :=
  calls.find? fun c => c.md5Str = key

/-- The registry is what the calls say, each file as its first call asked for it. -/
structure Coherent (calls : List FileCall) (st : Tracker) : Prop where
  undefined : ∀ {key}, firstCall calls key = none → fileGetByKey st key = none
  first : ∀ {key c}, firstCall calls key = some c → ∃ f, fileGetByKey st key = some f ∧ st.file f = some c.file
  listed : (fileList st).Nodup ∧ ∀ f, f ∈ fileList st ↔ ∃ key, fileGetByKey st key = some f
  named : ∀ name, (filesNamed st name).Nodup ∧
    ∀ f, f ∈ filesNamed st name ↔ ∃ x, st.file f = some x ∧ x.filename = name

variable {st st' : Tracker} {calls : List FileCall} {c : FileCall} {f : Addr} {key name : CString}

theorem firstCall_append (calls : List FileCall) (c : FileCall) (key : CString) :
    firstCall (calls ++ [c]) key = (firstCall calls key).or (if c.md5Str = key then some c else none) := by
  unfold firstCall
  rw [List.find?_append, List.find?_singleton]
  simp

theorem pieceCount_eq (length : Nat) {pieceSize : Nat} (hpos : pieceSize ≠ 0) :
    (length / pieceSize + if length % pieceSize = 0 then 0 else 1) = length ⌈/⌉ pieceSize := by
  have hsplit := Nat.div_add_mod length pieceSize
  have hlt := Nat.mod_lt length (Nat.pos_of_ne_zero hpos)
  rw [Nat.ceilDiv_eq_add_pred_div]
  generalize length / pieceSize = q at hsplit ⊢
  generalize length % pieceSize = r at hsplit hlt ⊢
  have hmul : (q + 1) * pieceSize = pieceSize * q + pieceSize := by
    rw [Nat.add_mul, Nat.one_mul, Nat.mul_comm]
  split
  · next hr =>
      refine (Nat.div_eq_of_lt_le ?_ ?_).symm
      · rw [Nat.add_zero, Nat.mul_comm]
        omega
      · rw [Nat.add_zero, hmul]
        omega
  · next hr =>
      refine (Nat.div_eq_of_lt_le ?_ ?_).symm
      · rw [hmul]
        omega
      · rw [Nat.add_mul, hmul]
        omega

/-! ## One call -/

theorem filesNamed_register {x : File} (n : CString) : filesNamed (fileRegister st f x) n =
    if x.filename = n then f :: filesNamed st n else filesNamed st n := by
  unfold filesNamed fileGetByName fileRegister htGetEntry
  dsimp only
  by_cases hn : x.filename = n
  · subst hn
    rw [if_pos rfl]
    cases hold : Table.lookup st.fileByName x.filename with
    | none =>
        dsimp only
        rw [htAddEntry, Table.lookup_add, hold, if_pos rfl]
        rfl
    | some l =>
        dsimp only
        rw [Table.lookup_update, if_pos rfl, hold]
        rfl
  · rw [if_neg hn]
    cases Table.lookup st.fileByName x.filename with
    | none =>
        dsimp only
        rw [htAddEntry, Table.lookup_add, if_neg hn, Option.or_none]
    | some l =>
        dsimp only
        rw [Table.lookup_update, if_neg (Ne.symm hn)]

/-- A first call registers its file, at a new address. -/
theorem run_first (hpos : toUInt32 c.pieceSize ≠ 0) (hfree : fileGetByKey st c.md5Str = none) :
    c.run st = some (fileRegister { st with fileHeap := st.fileHeap.alloc c.file } st.fileHeap.fresh c.file) := by
  unfold FileCall.run fileGetOrCreate
  rw [hfree]
  dsimp only
  rw [fileNew, if_neg hpos, Option.map_some, FileCall.file, ← pieceCount_eq _ hpos]

/-- A later call changes nothing. -/
theorem run_again (hreg : fileGetByKey st c.md5Str = some f) : c.run st = some st := by
  unfold FileCall.run fileGetOrCreate
  rw [hreg]
  rfl

/-- What is registered stays as it is. -/
structure Keeps (st st' : Tracker) : Prop where
  lookup : ∀ {key f}, fileGetByKey st key = some f → fileGetByKey st' key = some f
  file : ∀ {f x}, st.file f = some x → st'.file f = some x

theorem Keeps.refl (st : Tracker) : Keeps st st := ⟨fun h => h, fun h => h⟩

theorem Keeps.trans {st₁ : Tracker} (h₁ : Keeps st st₁) (h₂ : Keeps st₁ st') : Keeps st st' :=
  ⟨fun h => h₂.lookup (h₁.lookup h), fun h => h₂.file (h₁.file h)⟩

theorem run_keeps (hreg : Registry st) (hrun : c.run st = some st') : Registry st' ∧ Keeps st st' := by
  obtain ⟨⟨st₁, f⟩, hget, rfl⟩ := Option.map_eq_some_iff.1 hrun
  obtain ⟨hreg', hgains, -, -⟩ := fileGetOrCreate_spec hreg hget
  exact ⟨hreg', hgains.lookup, hgains.old⟩

/-- Every registered file is listed once. -/
theorem Registry.listed (hreg : Registry st) :
    (fileList st).Nodup ∧ ∀ f, f ∈ fileList st ↔ ∃ key, fileGetByKey st key = some f := by
  have hmem : ∀ key f, (key, f) ∈ st.fileByHash ↔ fileGetByKey st key = some f :=
    fun key f => (Table.lookup_eq_some_iff hreg.unique).symm
  constructor
  · rw [fileList, htToList_eq_reverse, List.nodup_reverse]
    refine List.Nodup.map_on ?_ (List.Nodup.of_map _ hreg.unique)
    rintro ⟨k₁, f⟩ h₁ ⟨k₂, f₂⟩ h₂ hf
    obtain rfl : f = f₂ := hf
    obtain ⟨x₁, hx₁, rfl⟩ := hreg.file_of_key ((hmem _ _).1 h₁)
    obtain ⟨x₂, hx₂, rfl⟩ := hreg.file_of_key ((hmem _ _).1 h₂)
    obtain rfl := Option.some.inj (hx₁.symm.trans hx₂)
    rfl
  · intro f
    rw [fileList, mem_htToList_iff]
    exact exists_congr fun key => hmem key f

theorem coherent_init : Coherent [] Tracker.init where
  undefined := fun _ => rfl
  first := fun hc => (by cases hc)
  listed := ⟨List.nodup_nil, fun f => ⟨fun hf => (by cases hf), fun ⟨key, hk⟩ => (by cases hk)⟩⟩
  named := fun name => ⟨List.nodup_nil, fun f => ⟨fun hf => (by cases hf), fun ⟨x, hx, _⟩ => (by cases hx)⟩⟩

theorem Coherent.again (hco : Coherent calls st) (hreg : fileGetByKey st c.md5Str = some f) :
    Coherent (calls ++ [c]) st := by
  have hsame : ∀ key, firstCall (calls ++ [c]) key = firstCall calls key := by
    intro key
    rw [firstCall_append]
    split
    · next hkey =>
        subst hkey
        cases hfirst : firstCall calls c.md5Str with
        | some d => rfl
        | none =>
            rw [hco.undefined hfirst] at hreg
            cases hreg
    · rw [Option.or_none]
  exact ⟨fun h => hco.undefined (hsame _ ▸ h), fun h => hco.first (hsame _ ▸ h), hco.listed, hco.named⟩

theorem Coherent.step (hco : Coherent calls st) (hreg : Registry st) (hpos : toUInt32 c.pieceSize ≠ 0) :
    ∃ st', c.run st = some st' ∧ Coherent (calls ++ [c]) st' := by
  cases hk : fileGetByKey st c.md5Str with
  | some f => exact ⟨st, run_again hk, hco.again hk⟩
  | none =>
      have hrun := run_first hpos hk
      refine ⟨_, hrun, ?_⟩
      obtain ⟨hreg', hkeeps⟩ := run_keeps hreg hrun
      have hlook : ∀ key, fileGetByKey
          (fileRegister { st with fileHeap := st.fileHeap.alloc c.file } st.fileHeap.fresh c.file) key =
          (fileGetByKey st key).or (if c.md5Str = key then some st.fileHeap.fresh else none) :=
        fun key => Table.lookup_add _ _ _ _
      have hfile : ∀ g, Tracker.file
          (fileRegister { st with fileHeap := st.fileHeap.alloc c.file } st.fileHeap.fresh c.file) g =
          if g = st.fileHeap.fresh then some c.file else st.file g := fun g => file_alloc rfl g
      have hfresh : st.file st.fileHeap.fresh = none := Heap.read_fresh _
      refine ⟨fun {key} hnone => ?_, fun {key d} hfirst => ?_, hreg'.listed, fun n => ?_⟩
      · rw [firstCall_append, Option.or_eq_none_iff] at hnone
        rw [hlook, hco.undefined hnone.1, Option.none_or]
        split
        · next hkey =>
            rw [if_pos hkey] at hnone
            cases hnone.2
        · rfl
      · rw [firstCall_append] at hfirst
        cases hold : firstCall calls key with
        | some d' =>
            rw [hold] at hfirst
            obtain rfl := Option.some.inj hfirst
            obtain ⟨f, hf, hx⟩ := hco.first hold
            exact ⟨f, hkeeps.lookup hf, hkeeps.file hx⟩
        | none =>
            rw [hold, Option.none_or] at hfirst
            split at hfirst
            · next hkey =>
                obtain rfl := Option.some.inj hfirst
                refine ⟨st.fileHeap.fresh, ?_, by rw [hfile, if_pos rfl]⟩
                rw [hlook, hco.undefined hold, if_pos hkey]
                rfl
            · cases hfirst
      · obtain ⟨hnodup, hmem⟩ := hco.named n
        have hnew : st.fileHeap.fresh ∉ filesNamed st n := by
          intro hf
          obtain ⟨x, hx, -⟩ := (hmem _).1 hf
          rw [hfresh] at hx
          cases hx
        rw [filesNamed_register]
        constructor
        · split
          · exact List.nodup_cons.2 ⟨hnew, hnodup⟩
          · exact hnodup
        · intro f
          rw [hfile]
          by_cases hf : f = st.fileHeap.fresh
          · subst hf
            rw [if_pos rfl]
            split
            · next hname => exact iff_of_true List.mem_cons_self ⟨c.file, rfl, hname⟩
            · next hname =>
                refine iff_of_false hnew ?_
                rintro ⟨x, hx, hxn⟩
                obtain rfl := Option.some.inj hx
                exact hname hxn
          · rw [if_neg hf, ← hmem]
            split
            · rw [List.mem_cons, or_iff_right hf]
              rfl
            · rfl

/-! ## A sequence of calls -/

/-- The registry after any calls says what the calls say, and nothing of it changes with further calls. -/
theorem registry_coherent (hpos : ∀ c ∈ calls, toUInt32 c.pieceSize ≠ 0) :
    ∃ st, runCalls Tracker.init calls = some st ∧ Coherent calls st ∧
      ∀ more, (∀ c ∈ more, toUInt32 c.pieceSize ≠ 0) →
        ∃ st', runCalls Tracker.init (calls ++ more) = some st' ∧ Keeps st st' := by
  have hgrow : ∀ {st : Tracker} {done more : List FileCall}, Coherent done st → Registry st →
      (∀ c ∈ more, toUInt32 c.pieceSize ≠ 0) → ∃ st', runCalls st more = some st' ∧
        Coherent (done ++ more) st' ∧ Registry st' ∧ Keeps st st' := by
    intro st done more hco hreg hmore
    induction more generalizing st done with
    | nil => exact ⟨st, rfl, by rwa [List.append_nil], hreg, Keeps.refl st⟩
    | cons c more ih =>
        obtain ⟨st₁, hrun, hco₁⟩ := hco.step hreg (hmore c List.mem_cons_self)
        obtain ⟨hreg₁, hkeeps₁⟩ := run_keeps hreg hrun
        obtain ⟨st', hruns, hco', hreg', hkeeps⟩ :=
          ih hco₁ hreg₁ fun d hd => hmore d (List.mem_cons_of_mem c hd)
        rw [List.append_assoc] at hco'
        refine ⟨st', ?_, hco', hreg', hkeeps₁.trans hkeeps⟩
        rw [runCalls, List.foldlM_cons, hrun]
        exact hruns
  have hreg₀ : Registry Tracker.init := ⟨List.nodup_nil, fun h => (by cases h), fun h => (by cases h)⟩
  obtain ⟨st, hruns, hco, hreg, -⟩ := hgrow coherent_init hreg₀ hpos
  refine ⟨st, hruns, hco, fun more hmore => ?_⟩
  obtain ⟨st', hruns', -, -, hkeeps⟩ := hgrow hco hreg hmore
  refine ⟨st', ?_, hkeeps⟩
  rw [runCalls, List.foldlM_append]
  rw [runCalls] at hruns
  rw [hruns]
  exact hruns'

/-- Two files under one name, and a second call for the first of them. -/
def threeCalls : List FileCall :=
  [⟨"film".toList, 10, 4, "a0".toList⟩, ⟨"film".toList, 7, 7, "b1".toList⟩,
    ⟨"song".toList, 2 ^ 32 + 5, 1, "a0".toList⟩]

theorem registry_coherent_threeCalls : ∃ st, runCalls Tracker.init threeCalls = some st ∧
    Coherent threeCalls st ∧ (filesNamed st "film".toList).Nodup := by
  obtain ⟨st, hrun, hco, -⟩ := @registry_coherent threeCalls (by decide)
  exact ⟨st, hrun, hco, (hco.named _).1⟩

end CTracker
end Raiezau
