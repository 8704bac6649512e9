import Raiezau.CppTracker.Peer

/-!
# Declare — what the clauses of an announce or an update do

`parseAnnounceSeed` and `parseAnnounceLeech`, one lemma for each.  A seed entry stands for the file object
that `FileMgr::getFile` returns for it; two entries of one hash can stand for two objects, and the peer's
map then keeps the first one only (`Unambiguous` excludes that).
-/

namespace Raiezau
namespace CppTracker

open Memory CUtil Assoc

variable {st st' st₁ : Tracker} {p f : Addr} {q : Peer} {k : CString}

/-! ## States -/

/-- A registered hash is that of its file. -/
def Registry (st : Tracker) : Prop :=
  ∀ ⦃k f⦄, st.fileMap.get k = some f → ∃ x, st.file f = some x ∧ x.hash = k

/-- The hash of every file is registered, for this file or another one. -/
def Hashed (st : Tracker) : Prop := ∀ ⦃f x⦄, st.file f = some x → st.fileMap.get x.hash ≠ none

/-- The peer set of file `f` has `p`. -/
def Tracker.HasPeer (st : Tracker) (f p : Addr) : Prop := ∃ x ∈ st.file f, p ∈ x.peers

theorem Tracker.HasPeer.file {x : File} (hx : st.file f = some x) : st.HasPeer f p ↔ p ∈ x.peers := by
  simp [Tracker.HasPeer, hx]

theorem peer_modifyPeer (st : Tracker) (p e : Addr) (u : Peer → Peer) :
    (st.modifyPeer p u).peer e = if e = p then (st.peer e).map u else st.peer e :=
  Heap.read_modify _ _ _ _

theorem file_modifyFile (st : Tracker) (f g : Addr) (u : File → File) :
    (st.modifyFile f u).file g = if g = f then (st.file g).map u else st.file g :=
  Heap.read_modify _ _ _ _

/-! ## Maps of files -/

theorem FileMap.get_insert (m : FileMap) (k k' : CString) (f : Addr) :
    (m.insert k f).get k' = (m.get k').or (if k = k' then some f else none) := by
  unfold FileMap.insert FileMap.get
  cases h : m.lookup k with
  | none =>
      rw [Table.insertNew_of_none h]
      exact Table.lookup_add m k k' f
  | some g =>
      rw [Table.insertNew_of_lookup h]
      by_cases hk : k = k'
      · subst hk
        rw [h]
        rfl
      · simp [hk]

theorem FileMap.Holds.insert {m : FileMap} (h : m.Holds f) (k : CString) (g : Addr) :
    (m.insert k g).Holds f := by
  obtain ⟨k', hk'⟩ := h
  exact ⟨k', by rw [FileMap.get_insert, hk']; rfl⟩

theorem FileMap.holds_of_insert {m : FileMap} {g : Addr} (h : (m.insert k g).Holds f) :
    m.Holds f ∨ f = g := by
  obtain ⟨k', hk'⟩ := h
  rw [FileMap.get_insert] at hk'
  cases hold : m.get k' with
  | some f' =>
      rw [hold] at hk'
      exact .inl ⟨k', hold.trans hk'⟩
  | none =>
      rw [hold, Option.none_or] at hk'
      split at hk'
      · exact .inr (Option.some.inj hk').symm
      · cases hk'

/-! ## Finding or registering a file -/

/-- What a seed entry says of a file. -/
structure Entry where
  fileSize : Nat
  pieceSize : Nat
  hash : CString
  deriving DecidableEq, Repr

/-- The file an entry is about, as `File::operator==` compares files. -/
def File.Matches (x : File) (e : Entry) : Prop :=
  x.fileSize = e.fileSize ∧ x.pieceSize = e.pieceSize ∧ x.hash = e.hash

instance (x : File) (e : Entry) : Decidable (x.Matches e) :=
  inferInstanceAs (Decidable (_ ∧ _ ∧ _))

/-- `getFile` has returned `f` for an entry. -/
structure Finds (e : Entry) (f : Addr) (st st₁ : Tracker) : Prop where
  registry : Registry st₁
  peerHeap : st₁.peerHeap = st.peerHeap
  file : ∃ x, st₁.file f = some x ∧ x.Matches e
  old : ∀ {g x}, st.file g = some x → st₁.file g = some x
  new : ∀ {g x}, st₁.file g = some x → st.file g = some x ∨ (x.peers = [] ∧ x.hash = e.hash)
  lookup : ∀ {k g}, st.fileMap.get k = some g → st₁.fileMap.get k = some g
  lookup_new : ∀ {k g}, st₁.fileMap.get k = some g →
    st.fileMap.get k = some g ∨ (k = e.hash ∧ g = f ∧ st.fileMap.get k = none)
  registered : st₁.fileMap.get e.hash ≠ none
  reuse : ∀ {g y}, st.fileMap.get e.hash = some g → st.file g = some y → y.Matches e → f = g

theorem registerFile_finds (hreg : Registry st) (x : File) (hx : x.peers = [])
    (hnew : ∀ {g y}, st.fileMap.get x.hash = some g → st.file g = some y →
      ¬ y.Matches ⟨x.fileSize, x.pieceSize, x.hash⟩) :
    Finds ⟨x.fileSize, x.pieceSize, x.hash⟩ (registerFile st x).2 st (registerFile st x).1 := by
  have hfresh : st.file st.fileHeap.fresh = none := Heap.read_fresh _
  have hfile : ∀ g, (registerFile st x).1.file g =
      if g = st.fileHeap.fresh then some x else st.file g := fun g => Heap.read_alloc _ _ _
  have hget : ∀ k, (registerFile st x).1.fileMap.get k =
      (st.fileMap.get k).or (if x.hash = k then some st.fileHeap.fresh else none) :=
    fun k => FileMap.get_insert _ _ _ _
  have hold : ∀ {g y}, st.file g = some y → (registerFile st x).1.file g = some y := by
    intro g y hy
    rw [hfile, if_neg, hy]
    rintro rfl
    rw [hfresh] at hy
    cases hy
  have hself : (registerFile st x).1.file st.fileHeap.fresh = some x := by
    rw [hfile, if_pos rfl]
  have hlookup : ∀ {k g}, (registerFile st x).1.fileMap.get k = some g →
      st.fileMap.get k = some g ∨ (k = x.hash ∧ g = st.fileHeap.fresh ∧ st.fileMap.get k = none) := by
    intro k g hk
    rw [hget] at hk
    -- The new entry takes the place of one under its hash, or comes after the others.
    cases hk₀ : st.fileMap.get k with
    | some g' =>
        rw [hk₀] at hk
        exact .inl hk
    | none =>
        rw [hk₀, Option.none_or] at hk
        split at hk
        · next h => exact .inr ⟨h.symm, (Option.some.inj hk).symm, rfl⟩
        · cases hk
  refine ⟨?_, rfl, ⟨x, hself, rfl, rfl, rfl⟩, hold, ?_, ?_, hlookup, ?_, ?_⟩
  · intro k g hk
    rcases hlookup hk with hk₀ | ⟨rfl, rfl, -⟩
    · obtain ⟨y, hy, hyk⟩ := hreg hk₀
      exact ⟨y, hold hy, hyk⟩
    · exact ⟨x, hself, rfl⟩
  · intro g y hy
    rw [hfile] at hy
    split at hy
    · next h =>
        obtain rfl := Option.some.inj hy
        exact .inr ⟨hx, rfl⟩
    · exact .inl hy
  · intro k g hk
    rw [hget, hk]
    rfl
  · rw [hget]
    cases st.fileMap.get x.hash <;> simp
  · intro g y hg hy hm
    exact absurd hm (hnew hg hy)

theorem getFile_finds (hreg : Registry st) {fileName : CString} {e : Entry}
    (h : getFile st fileName e.fileSize e.pieceSize e.hash = some (st₁, f)) : Finds e f st st₁ := by
  unfold getFile at h
  -- A file of the hash is taken if its sizes are those of the entry, else another one is made.
  cases hk : st.fileMap.get e.hash with
  | none =>
      rw [hk] at h
      obtain ⟨rfl, rfl⟩ := Prod.mk.inj (Option.some.inj h)
      refine registerFile_finds hreg ⟨fileName, e.fileSize, e.pieceSize, e.hash, []⟩ rfl fun hg => ?_
      rw [hk] at hg
      cases hg
  | some g =>
      obtain ⟨y, hy, hyk⟩ := hreg hk
      simp only [hk, hy, Option.bind_eq_bind, Option.bind_some] at h
      have hequals : ∀ {name peers}, y.equals ⟨name, e.fileSize, e.pieceSize, e.hash, peers⟩ = true ↔
          y.Matches e := by
        intro name peers
        simp [File.equals, File.Matches]
        tauto
      split at h
      · next heq =>
          obtain ⟨rfl, rfl⟩ := Prod.mk.inj (Option.some.inj h)
          exact
            { registry := hreg
              peerHeap := rfl
              file := ⟨y, hy, hequals.1 heq⟩
              old := fun h => h
              new := fun h => .inl h
              lookup := fun h => h
              lookup_new := fun h => .inl h
              registered := by simp [hk]
              reuse := fun hg _ _ => Option.some.inj (hk.symm.trans hg) }
      · next hne =>
          obtain ⟨rfl, rfl⟩ := Prod.mk.inj (Option.some.inj h)
          refine registerFile_finds hreg ⟨fileName, e.fileSize, e.pieceSize, e.hash, []⟩ rfl fun hg hy' hm => hne ?_
          obtain rfl := Option.some.inj (hk.symm.trans hg)
          obtain rfl := Option.some.inj (hy.symm.trans hy')
          exact hequals.2 hm

/-! ## Recording a file -/

/-- The peer's record is changed by `u`, and the peer is in the peer set of `f`. -/
structure Records (p : Addr) (u : Peer → Peer) (f : Addr) (st st' : Tracker) : Prop where
  peer : ∀ e, st'.peer e = if e = p then (st.peer e).map u else st.peer e
  fresh : st'.peerHeap.fresh = st.peerHeap.fresh
  fileMap : st'.fileMap = st.fileMap
  fileSet : st'.fileSet = st.fileSet
  file : ∀ g, st'.file g =
    if g = f then (st.file g).map fun x => { x with peers := x.peers.insert p } else st.file g

theorem addPeer_records {u : Peer → Peer} (h : addPeer (st.modifyPeer p u) p f = some st') :
    Records p u f st st' := by
  simp only [addPeer, Option.bind_eq_bind, Option.bind_eq_some_iff] at h
  obtain ⟨x, -, hpure⟩ := h
  obtain rfl := Option.some.inj hpure
  exact
    { peer := fun e => peer_modifyPeer st p e u
      fresh := Heap.fresh_modify _ _ _
      fileMap := rfl
      fileSet := rfl
      file := fun g => file_modifyFile (st.modifyPeer p u) f g _ }

/-- What declaring files can change: `p` is in the peer sets of the files of `l`, files have been
registered, and the record of `p` may differ. -/
structure Enrolled (p : Addr) (l : List Addr) (st st' : Tracker) : Prop where
  registry : Registry st'
  hashed : Hashed st → Hashed st'
  others : ∀ {e}, e ≠ p → st'.peer e = st.peer e
  fresh : st'.peerHeap.fresh = st.peerHeap.fresh
  old : ∀ {g x}, st.file g = some x → ∃ ps, st'.file g = some { x with peers := ps }
  lookup : ∀ {k g}, st.fileMap.get k = some g → st'.fileMap.get k = some g
  hasPeer : ∀ {g e}, st'.HasPeer g e ↔ st.HasPeer g e ∨ (e = p ∧ g ∈ l)

theorem Enrolled.refl (hreg : Registry st) (p : Addr) : Enrolled p [] st st where
  registry := hreg
  hashed := fun h => h
  others := fun _ => rfl
  fresh := rfl
  old := fun {_ x} hx => ⟨x.peers, hx⟩
  lookup := fun h => h
  hasPeer := by simp

theorem Enrolled.trans {l₁ l₂ : List Addr} (h₁ : Enrolled p l₁ st st₁) (h₂ : Enrolled p l₂ st₁ st') :
    Enrolled p (l₁ ++ l₂) st st' where
  registry := h₂.registry
  hashed := fun h => h₂.hashed (h₁.hashed h)
  others := fun he => (h₂.others he).trans (h₁.others he)
  fresh := h₂.fresh.trans h₁.fresh
  old := by
    intro g x hx
    obtain ⟨ps₁, hx₁⟩ := h₁.old hx
    obtain ⟨ps₂, hx₂⟩ := h₂.old hx₁
    exact ⟨ps₂, hx₂⟩
  lookup := fun h => h₂.lookup (h₁.lookup h)
  hasPeer := by
    intro g e
    rw [h₂.hasPeer, h₁.hasPeer, List.mem_append]
    tauto

theorem Finds.enrolled {e : Entry} (h : Finds e f st st₁) : Enrolled p [] st st₁ where
  registry := h.registry
  hashed := by
    intro hold g x hx
    rcases h.new hx with hx | ⟨-, hh⟩
    · obtain ⟨g', hg'⟩ := Option.ne_none_iff_exists'.1 (hold hx)
      simp [h.lookup hg']
    · rw [hh]
      exact h.registered
  others := by
    intro e _
    rw [Tracker.peer, h.peerHeap]
    rfl
  fresh := congrArg Heap.fresh h.peerHeap
  old := fun {_ x} hx => ⟨x.peers, h.old hx⟩
  lookup := h.lookup
  hasPeer := by
    intro g e
    rw [List.mem_nil_iff, and_false, or_false]
    constructor
    · rintro ⟨x, hx, hm⟩
      rcases h.new hx with hx | ⟨hnil, -⟩
      · exact ⟨x, hx, hm⟩
      · rw [hnil] at hm
        cases hm
    · rintro ⟨x, hx, hm⟩
      exact ⟨x, h.old hx, hm⟩

theorem Records.enrolled {u : Peer → Peer} (h : Records p u f st st') (hreg : Registry st)
    {x : File} (hf : st.file f = some x) : Enrolled p [f] st st' where
  registry := by
    intro k g hk
    rw [h.fileMap] at hk
    obtain ⟨y, hy, hyk⟩ := hreg hk
    rw [h.file, hy]
    split
    · exact ⟨_, rfl, hyk⟩
    · exact ⟨y, rfl, hyk⟩
  hashed := by
    intro hold g y hy
    rw [h.fileMap]
    rw [h.file] at hy
    split at hy
    · obtain ⟨y₀, hy₀, rfl⟩ := Option.map_eq_some_iff.1 hy
      have hy₀' : st.fileMap.get y₀.hash ≠ none := hold hy₀
      exact hy₀'
    · exact hold hy
  others := by
    intro e he
    rw [h.peer, if_neg he]
  fresh := h.fresh
  old := by
    intro g y hy
    rw [h.file, hy]
    split
    · exact ⟨_, rfl⟩
    · exact ⟨y.peers, rfl⟩
  lookup := by
    intro k g hk
    rw [h.fileMap]
    exact hk
  hasPeer := by
    intro g e
    rw [List.mem_singleton]
    by_cases hg : g = f
    · subst hg
      have hx' : st'.file g = some { x with peers := x.peers.insert p } := by
        rw [h.file, if_pos rfl, hf]
        rfl
      rw [Tracker.HasPeer.file hx', Tracker.HasPeer.file hf, PtrSet.mem_insert]
      tauto
    · have hx' : st'.file g = st.file g := by rw [h.file, if_neg hg]
      simp [Tracker.HasPeer, hx', hg]

/-! ## `parseAnnounceSeed` -/

/-- The entries of a seed clause whose two numbers `stoul` takes. -/
def entries : List CString → List Entry
  | _ :: size :: piece :: hash :: v =>
      match stoul size, stoul piece with
      | some fileSize, some pieceSize => ⟨fileSize, pieceSize, hash⟩ :: entries v
      | _, _ => entries v
  | _ => []

/-- Entries of one hash agree with each other and with the file registered under the hash. -/
def Unambiguous (st : Tracker) (es : List Entry) : Prop :=
  es.Pairwise fun e₁ e₂ => e₁.hash = e₂.hash →
    e₁ = e₂ ∧ ∀ g ∈ st.fileMap.get e₁.hash, ∀ x ∈ st.file g, x.Matches e₁

instance (st : Tracker) (es : List Entry) : Decidable (Unambiguous st es) :=
  inferInstanceAs (Decidable (es.Pairwise _))

/-- The hashes of the entries that a map has already lead to the files registered under them. -/
def Settled (st : Tracker) (m : FileMap) (es : List Entry) : Prop :=
  ∀ e ∈ es, ∀ g, m.get e.hash = some g →
    st.fileMap.get e.hash = some g ∧ ∃ x, st.file g = some x ∧ x.Matches e

/-- The seed entries `es` have been read, `l` are their files, in order, and `m` is the map left. -/
structure Seeded (p : Addr) (q : Peer) (es : List Entry) (l : List Addr) (m : FileMap)
    (st st' : Tracker) : Prop extends Enrolled p l st st' where
  peer : st'.peer p = some { q with seed := m }
  files : List.Forall₂ (fun f e => ∃ x, st'.file f = some x ∧ x.Matches e) l es
  kept : ∀ {f}, q.seed.Holds f → m.Holds f
  from_l : ∀ {f}, m.Holds f → q.seed.Holds f ∨ f ∈ l
  domain : ∀ {k}, st'.fileMap.get k ≠ none ↔ st.fileMap.get k ≠ none ∨ ∃ e ∈ es, e.hash = k
  recorded : Settled st q.seed es → Unambiguous st es → ∀ f ∈ l, m.Holds f

theorem Enrolled.matches {l : List Addr} (h : Enrolled p l st st') {g : Addr} {x x' : File} {e : Entry}
    (hx : st.file g = some x) (hx' : st'.file g = some x') : x'.Matches e ↔ x.Matches e := by
  obtain ⟨ps, hps⟩ := h.old hx
  obtain rfl := Option.some.inj (hps.symm.trans hx')
  exact Iff.rfl

/-- Once an entry has been found, its hash leads to its file, if it is unambiguous. -/
theorem Finds.get_hash {e : Entry} (h : Finds e f st st₁) (hreg : Registry st)
    (hun : ∀ g ∈ st.fileMap.get e.hash, ∀ x ∈ st.file g, x.Matches e) :
    st₁.fileMap.get e.hash = some f := by
  obtain ⟨g, hg⟩ := Option.ne_none_iff_exists'.1 h.registered
  rcases h.lookup_new hg with hold | ⟨-, rfl, -⟩
  · obtain ⟨x, hx, -⟩ := hreg hold
    rw [hg, h.reuse hold hx (hun g hold x hx)]
  · exact hg

section Reading

variable {e : Entry} {es : List Entry} {m : FileMap} {st₂ : Tracker}

/-- The map after an entry holds its file. -/
theorem Finds.insert_holds (h : Finds e f st st₁) (hset : Settled st m (e :: es)) :
    (m.insert e.hash f).Holds f := by
  cases hm : m.get e.hash with
  | none => exact ⟨e.hash, by rw [FileMap.get_insert, hm, if_pos rfl]; rfl⟩
  | some g =>
      obtain ⟨hget, x, hx, hmatch⟩ := hset e (by simp) g hm
      rw [h.reuse hget hx hmatch]
      exact FileMap.Holds.insert ⟨e.hash, hm⟩ _ _

theorem Finds.settled (h : Finds e f st st₁) (hreg : Registry st) (henr : Enrolled p [f] st₁ st₂)
    (hmap : st₂.fileMap = st₁.fileMap) (hset : Settled st m (e :: es))
    (hun : Unambiguous st (e :: es)) : Settled st₂ (m.insert e.hash f) es := by
  have hhead := (List.pairwise_cons.1 hun).1
  intro e' he' g hg
  rw [FileMap.get_insert] at hg
  cases hm : m.get e'.hash with
  | some g₀ =>
      obtain rfl : g₀ = g := by simpa [hm] using hg
      obtain ⟨hget, x, hx, hmatch⟩ := hset e' (by simp [he']) g₀ hm
      obtain ⟨ps, hps⟩ := henr.old (h.old hx)
      exact ⟨henr.lookup (h.lookup hget), _, hps, hmatch⟩
  | none =>
      by_cases hh : e.hash = e'.hash
      · obtain rfl : f = g := by simpa [hm, hh] using hg
        obtain ⟨rfl, hreg'⟩ := hhead e' he' hh
        obtain ⟨x, hx, hmatch⟩ := h.file
        obtain ⟨ps, hps⟩ := henr.old hx
        exact ⟨by rw [hmap]; exact h.get_hash hreg hreg', _, hps, hmatch⟩
      · simp [hm, hh] at hg

theorem Finds.unambiguous (h : Finds e f st st₁) (hreg : Registry st) (henr : Enrolled p [f] st₁ st₂)
    (hmap : st₂.fileMap = st₁.fileMap) (hun : Unambiguous st (e :: es)) : Unambiguous st₂ es := by
  obtain ⟨hhead, htail⟩ := List.pairwise_cons.1 hun
  refine htail.imp_of_mem fun {e₁ e₂} he₁ _ hpair hh => ?_
  obtain ⟨rfl, hold⟩ := hpair hh
  refine ⟨rfl, fun g hg x hx => ?_⟩
  have hg₁ : st₁.fileMap.get e₁.hash = some g := by
    rw [← hmap]
    exact hg
  rcases h.lookup_new hg₁ with hg₀ | ⟨hhash, rfl, -⟩
  · obtain ⟨x₀, hx₀, -⟩ := hreg hg₀
    exact (henr.matches (h.old hx₀) hx).2 (hold g hg₀ x₀ hx₀)
  · obtain ⟨rfl, -⟩ := hhead e₁ he₁ hhash.symm
    obtain ⟨x₁, hx₁, hmatch⟩ := h.file
    exact (henr.matches hx₁ hx).2 hmatch

end Reading

theorem Finds.domain {e : Entry} (h : Finds e f st st₁) {k : CString} :
    st₁.fileMap.get k ≠ none ↔ st.fileMap.get k ≠ none ∨ e.hash = k := by
  constructor
  · intro hk
    obtain ⟨g, hg⟩ := Option.ne_none_iff_exists'.1 hk
    rcases h.lookup_new hg with hold | ⟨rfl, -, -⟩
    · exact .inl (by simp [hold])
    · exact .inr rfl
  · rintro (hk | rfl)
    · obtain ⟨g, hg⟩ := Option.ne_none_iff_exists'.1 hk
      simp [h.lookup hg]
    · exact h.registered

theorem seedEntry_inv (hreg : Registry st) {name size piece hash : CString}
    (h : seedEntry p st name size piece hash = some st') :
    (entries [name, size, piece, hash] = [] ∧ st' = st) ∨
      ∃ e f st₁, entries [name, size, piece, hash] = [e] ∧ e.hash = hash ∧ Finds e f st st₁ ∧
        Records p (fun q => { q with seed := q.seed.insert e.hash f }) f st₁ st' := by
  unfold seedEntry at h
  unfold entries
  cases hsize : stoul size with
  | none =>
      simp only [hsize] at h
      exact .inl ⟨rfl, (Option.some.inj h).symm⟩
  | some fileSize =>
      cases hpiece : stoul piece with
      | none =>
          simp only [hsize, hpiece] at h
          exact .inl ⟨rfl, (Option.some.inj h).symm⟩
      | some pieceSize =>
          simp only [hsize, hpiece, Option.bind_eq_bind, Option.bind_eq_some_iff] at h
          obtain ⟨⟨st₁, f⟩, hget, x, hx, hadd⟩ := h
          let e : Entry := ⟨fileSize, pieceSize, hash⟩
          have hfinds : Finds e f st st₁ := getFile_finds hreg (e := e) hget
          obtain ⟨y, hy, -, -, hyh⟩ := hfinds.file
          obtain rfl := Option.some.inj (hy.symm.trans hx)
          rw [hyh] at hadd
          exact .inr ⟨e, f, st₁, rfl, rfl, hfinds, addPeer_records hadd⟩

theorem entries_append_four (name size piece hash : CString) (v : List CString) :
    entries (name :: size :: piece :: hash :: v) = entries [name, size, piece, hash] ++ entries v := by
  simp only [entries]
  cases stoul size with
  | none => rfl
  | some fileSize =>
      cases stoul piece with
      | none => rfl
      | some pieceSize => rfl

theorem seedEntries_seeded {v : List CString} (hreg : Registry st) (hq : st.peer p = some q)
    (h : seedEntries p st v = some st') : ∃ l m, Seeded p q (entries v) l m st st' := by
  -- Four tokens at a time; an entry that cannot be read is passed over.
  induction st, v using seedEntries.induct generalizing q with
  | case1 st name size piece hash v ih =>
      simp only [seedEntries, Option.bind_eq_bind, Option.bind_eq_some_iff] at h
      obtain ⟨st₂, hone, hrest⟩ := h
      rw [entries_append_four]
      rcases seedEntry_inv hreg hone with ⟨hnil, rfl⟩ | ⟨e, f, st₁, hes, rfl, hfinds, hrec⟩
      · rw [hnil]
        exact ih st₂ hreg hq hrest
      · rw [hes]
        obtain ⟨x, hx, hmatch⟩ := hfinds.file
        have henr₂ : Enrolled p [f] st₁ st₂ := hrec.enrolled hfinds.registry hx
        have henr : Enrolled p ([] ++ [f]) st st₂ := hfinds.enrolled.trans henr₂
        have hq₂ : st₂.peer p = some { q with seed := q.seed.insert e.hash f } := by
          have hq₁ : st₁.peer p = some q := by
            rw [Tracker.peer, hfinds.peerHeap]
            exact hq
          rw [hrec.peer, if_pos rfl, hq₁]
          rfl
        obtain ⟨l, m, hs⟩ := ih st₂ henr.registry hq₂ hrest
        refine ⟨f :: l, m, ⟨henr.trans hs.toEnrolled, hs.peer, ?_, ?_, ?_, ?_, ?_⟩⟩
        · obtain ⟨ps, hps⟩ := henr₂.old hx
          obtain ⟨ps', hps'⟩ := hs.old hps
          exact List.Forall₂.cons ⟨_, hps', hmatch⟩ hs.files
        · exact fun hf => hs.kept (FileMap.Holds.insert hf _ _)
        · intro g hg
          rcases hs.from_l hg with hg | hg
          · rcases FileMap.holds_of_insert hg with hg | rfl
            · exact .inl hg
            · exact .inr (by simp)
          · exact .inr (by simp [hg])
        · intro k
          rw [hs.domain, hrec.fileMap, hfinds.domain]
          simp only [List.singleton_append, List.mem_cons, exists_eq_or_imp, or_assoc]
        · intro hset hun g hg
          rcases List.mem_cons.1 hg with rfl | hg
          · exact hs.kept (hfinds.insert_holds hset)
          · exact hs.recorded (hfinds.settled hreg henr₂ hrec.fileMap hset hun)
              (hfinds.unambiguous hreg henr₂ hrec.fileMap hun) g hg
  | case2 v st hshort =>
      have hnil : entries v = [] := by
        rw [entries]
        exact hshort
      rw [seedEntries] at h
      · obtain rfl := Option.some.inj h
        rw [hnil]
        exact ⟨[], q.seed, ⟨Enrolled.refl hreg p, hq, List.Forall₂.nil, fun h => h, .inl,
          by simp, by simp⟩⟩
      · exact hshort

theorem enrolled_modifyPeer (hreg : Registry st) (p : Addr) (u : Peer → Peer) :
    Enrolled p [] st (st.modifyPeer p u) where
  registry := hreg
  hashed := fun h => h
  others := by
    intro e he
    rw [peer_modifyPeer, if_neg he]
  fresh := Heap.fresh_modify _ _ _
  old := fun {_ x} hx => ⟨x.peers, hx⟩
  lookup := fun h => h
  hasPeer := by
    intro g e
    rw [List.mem_nil_iff, and_false, or_false]
    exact Iff.rfl

theorem peer_modifyPeer_self {u : Peer → Peer} (hq : st.peer p = some q) :
    (st.modifyPeer p u).peer p = some (u q) := by
  rw [peer_modifyPeer, if_pos rfl, hq]
  rfl

/-- A seed clause that is accepted replaces the seed map. -/
theorem parseAnnounceSeed_ok (hreg : Registry st) (hq : st.peer p = some q) {text : CString}
    (h : parseAnnounceSeed st p text = some (st', .ok ())) :
    ∃ l m, Seeded p { q with seed := [] } (entries (tokens text)) l m st st' := by
  simp only [parseAnnounceSeed] at h
  split at h
  · cases (Prod.mk.inj (Option.some.inj h)).2
  · obtain ⟨st₁, hent, hpair⟩ := Option.map_eq_some_iff.1 h
    obtain ⟨rfl, -⟩ := Prod.mk.inj hpair
    have henr := enrolled_modifyPeer hreg p fun q => { q with seed := [] }
    obtain ⟨l, m, hs⟩ := seedEntries_seeded henr.registry (peer_modifyPeer_self hq) hent
    exact ⟨l, m, ⟨henr.trans hs.toEnrolled, hs.peer, hs.files, hs.kept, hs.from_l, hs.domain, hs.recorded⟩⟩

/-! ## `parseAnnounceLeech` -/

/-- The registered files whose hash is a word of a text. -/
def registered (st : Tracker) (text : CString) : List Addr := (tokens text).filterMap st.fileMap.get

theorem leechEntry_inv (hreg : Registry st) (h : leechEntry p st k = some st') :
    (st.fileMap.get k = none ∧ st' = st) ∨
      ∃ f x, st.fileMap.get k = some f ∧ st.file f = some x ∧
        Records p (fun q => { q with leech := q.leech.insert k f }) f st st' := by
  unfold leechEntry at h
  cases hk : st.fileMap.get k with
  | none =>
      rw [hk] at h
      exact .inl ⟨rfl, (Option.some.inj h).symm⟩
  | some f =>
      simp only [hk, Option.bind_eq_bind, Option.bind_eq_some_iff] at h
      obtain ⟨x, hx, hadd⟩ := h
      obtain ⟨y, hy, rfl⟩ := hreg hk
      obtain rfl := Option.some.inj (hy.symm.trans hx)
      exact .inr ⟨f, y, rfl, hy, addPeer_records hadd⟩

theorem PtrSet.insert_insert (s : PtrSet) (a : Addr) : (s.insert a).insert a = s.insert a := by
  have hmem : a ∈ s.insert a := PtrSet.mem_insert.2 (.inl rfl)
  conv_lhs => unfold PtrSet.insert
  rw [if_pos]
  · rfl
  · exact hmem

/-- The hashes `ks` have been read: `p` is in the peer set of each registered file among them, and `m`
is the map left. -/
structure Leeched (p : Addr) (q : Peer) (ks : List CString) (m : FileMap) (st st' : Tracker) : Prop
    extends Enrolled p (ks.filterMap st.fileMap.get) st st' where
  peer : st'.peer p = some { q with leech := m }
  fileMap : st'.fileMap = st.fileMap
  fileSet : st'.fileSet = st.fileSet
  file : ∀ g, st'.file g = (st.file g).map fun x =>
    if g ∈ ks.filterMap st.fileMap.get then { x with peers := x.peers.insert p } else x
  get : ∀ k, m.get k = (q.leech.get k).or (if k ∈ ks then st.fileMap.get k else none)

theorem leechEntries_leeched {ks : List CString} (hreg : Registry st) (hq : st.peer p = some q)
    (h : ks.foldlM (leechEntry p) st = some st') : ∃ m, Leeched p q ks m st st' := by
  -- The registry does not change, so every hash is looked up as at the start.
  induction ks generalizing st q with
  | nil =>
      obtain rfl := Option.some.inj h
      exact ⟨q.leech, ⟨Enrolled.refl hreg p, hq, rfl, rfl, by simp, by simp⟩⟩
  | cons k ks ih =>
      rw [List.foldlM_cons, Option.bind_eq_bind, Option.bind_eq_some_iff] at h
      obtain ⟨st₁, hone, hrest⟩ := h
      rcases leechEntry_inv hreg hone with ⟨hnone, rfl⟩ | ⟨f, x, hk, hx, hrec⟩
      · obtain ⟨m, hl⟩ := ih hreg hq hrest
        have hlist : (k :: ks).filterMap st₁.fileMap.get = ks.filterMap st₁.fileMap.get :=
          List.filterMap_cons_none hnone
        refine ⟨m, ⟨hlist ▸ hl.toEnrolled, hl.peer, hl.fileMap, hl.fileSet, ?_, ?_⟩⟩
        · intro g
          rw [hl.file, hlist]
        · intro k'
          rw [hl.get]
          by_cases hkk : k' = k
          · subst hkk
            simp [hnone]
          · simp [hkk]
      · have henr : Enrolled p [f] st st₁ := hrec.enrolled hreg hx
        have hq₁ : st₁.peer p = some { q with leech := q.leech.insert k f } := by
          rw [hrec.peer, if_pos rfl, hq]
          rfl
        obtain ⟨m, hl⟩ := ih henr.registry hq₁ hrest
        have hlist : (k :: ks).filterMap st.fileMap.get = f :: ks.filterMap st₁.fileMap.get := by
          rw [List.filterMap_cons_some hk, hrec.fileMap]
        have henr' : Enrolled p ([f] ++ ks.filterMap st₁.fileMap.get) st st' :=
          henr.trans hl.toEnrolled
        refine ⟨m, ⟨hlist ▸ henr', hl.peer, hl.fileMap.trans hrec.fileMap,
          hl.fileSet.trans hrec.fileSet, ?_, ?_⟩⟩
        · intro g
          rw [hl.file, hrec.file, hlist]
          cases st.file g with
          | none => simp
          | some y =>
              by_cases hgf : g = f
              · subst hgf
                by_cases hgl : g ∈ ks.filterMap st₁.fileMap.get
                · simp [hgl, PtrSet.insert_insert]
                · simp [hgl]
              · simp [hgf]
        · intro k'
          rw [hl.get, FileMap.get_insert, hrec.fileMap]
          by_cases hkk : k = k'
          · subst hkk
            cases q.leech.get k <;> simp [hk]
          · cases q.leech.get k' <;> simp [hkk, Ne.symm hkk]

/-- A list that goes through `parseAnnounceLeech` replaces the leech map. -/
theorem parseAnnounceLeech_leeched (hreg : Registry st) (hq : st.peer p = some q) {text : CString}
    (h : parseAnnounceLeech st p text = some st') :
    ∃ m, Leeched p { q with leech := [] } (tokens text) m st st' := by
  have henr := enrolled_modifyPeer hreg p fun q => { q with leech := [] }
  obtain ⟨m, hl⟩ := leechEntries_leeched henr.registry (peer_modifyPeer_self hq) h
  exact ⟨m, ⟨henr.trans hl.toEnrolled, hl.peer, hl.fileMap, hl.fileSet, hl.file, hl.get⟩⟩

theorem Leeched.holds_iff {ks : List CString} {m : FileMap}
    (h : Leeched p { q with leech := [] } ks m st st') :
    m.Holds f ↔ f ∈ ks.filterMap st.fileMap.get := by
  have hget : ∀ k, m.get k = if k ∈ ks then st.fileMap.get k else none := fun k => h.get k
  rw [List.mem_filterMap]
  constructor
  · rintro ⟨k, hk⟩
    rw [hget] at hk
    split at hk
    · next hmem => exact ⟨k, hmem, hk⟩
    · cases hk
  · rintro ⟨k, hmem, hk⟩
    exact ⟨k, by rw [hget, if_pos hmem, hk]⟩

end CppTracker
end Raiezau
