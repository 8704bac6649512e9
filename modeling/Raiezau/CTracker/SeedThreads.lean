import Raiezau.CTracker.FileRegistry
import Raiezau.Machine.Fold
import Raiezau.Machine.Run

/-!
# SeedThreads — handler threads that announce files at the same time

`get_seed_file_list` and the `file_add_client` calls behind it, cut at the `ht_*` calls: each of them holds
the lock of its table and is one step, and the steps of the threads interleave freely.  Between the lookup
of a key and its registration the table is unlocked, so two threads can both miss it.

With two entries under one key it depends on the buckets which of them a lookup gives; an event says which
one it was.
-/

namespace Raiezau
namespace CTracker
namespace SeedThreads

open Memory CUtil Assoc Machine

/-! ## Model -/

/-- The announcement a thread handles: its client, the endpoint key and the entries of the seed clause. -/
structure Announcement where
  client : Addr
  endpoint : CString
  entries : List FileCall
  deriving DecidableEq, Repr

/-- The next step of a thread, named after the call it makes; `todo` are the entries not looked at yet and
`seeds` the files of the others. -/
inductive Phase
  /-- `ht_get_entry` on `file_by_hash`. -/
  | getFile (todo : List FileCall) (seeds : List Addr)
  /-- `ht_add_entry` on `file_by_hash`. -/
  | addFile (c : FileCall) (f : Addr) (todo : List FileCall) (seeds : List Addr)
  /-- `ht_get_entry` on `file_by_name`. -/
  | getList (c : FileCall) (f : Addr) (todo : List FileCall) (seeds : List Addr)
  /-- `ht_add_entry` on `file_by_name`, with a new list. -/
  | addList (c : FileCall) (f l : Addr) (todo : List FileCall) (seeds : List Addr)
  /-- `list_add`. -/
  | listAdd (c : FileCall) (f l : Addr) (todo : List FileCall) (seeds : List Addr)
  /-- `ht_add_unique_entry` on the clients of the next file. -/
  | addClient (files : List Addr)
  deriving DecidableEq, Repr

structure Thread where
  announcement : Announcement
  phase : Phase
  deriving DecidableEq, Repr

/-- What the threads share. -/
structure Shared where
  fileHeap : Heap File
  listHeap : Heap (List Addr)
  fileByHash : HashTable Addr
  fileByName : HashTable Addr
  deriving DecidableEq, Repr

structure State where
  shared : Shared
  threads : List Thread
  deriving DecidableEq, Repr

def start (a : Announcement) : Thread := ⟨a, .getFile a.entries []⟩

def init (as : List Announcement) : State :=
  { shared :=
      { fileHeap := Heap.empty
        listHeap := Heap.empty
        fileByHash := htCreate
        fileByName := htCreate }
    threads := as.map start }

/-- A lookup may give any of the entries under the key. -/
def Finds (h : HashTable Addr) (key : CString) : Option Addr → Prop
  | none => key ∉ h.keys
  | some f => (key, f) ∈ h

instance (h : HashTable Addr) (key : CString) (found : Option Addr) : Decidable (Finds h key found) := by
  cases found <;> unfold Finds <;> infer_instance

/-- One step of a thread; `found` is what its lookup gives, if it makes one. -/
def Thread.step (t : Thread) (s : Shared) (found : Option Addr) : Option (Shared × Phase) :=
  match t.phase with
  | .getFile [] seeds => some (s, .addClient seeds)
  | .getFile (c :: todo) seeds =>
      if Finds s.fileByHash c.md5Str found then
        match found with
        | some f => some (s, .getFile todo (seeds ++ [f]))
        | none =>
            -- `file_new` divides by the piece size.
            if toUInt32 c.pieceSize = 0 then none
            else
              some ({ s with fileHeap := s.fileHeap.alloc c.file }, .addFile c s.fileHeap.fresh todo seeds)
      else none
  | .addFile c f todo seeds =>
      some ({ s with fileByHash := htAddEntry s.fileByHash c.md5Str f }, .getList c f todo seeds)
  | .getList c f todo seeds =>
      if Finds s.fileByName c.filename found then
        match found with
        | some l => some (s, .listAdd c f l todo seeds)
        | none => some ({ s with listHeap := s.listHeap.alloc [] }, .addList c f s.listHeap.fresh todo seeds)
      else none
  | .addList c f l todo seeds =>
      some ({ s with fileByName := htAddEntry s.fileByName c.filename l }, .listAdd c f l todo seeds)
  | .listAdd _ f l todo seeds =>
      some ({ s with listHeap := s.listHeap.modify l (f :: ·) }, .getFile todo (seeds ++ [f]))
  | .addClient [] => none
  | .addClient (f :: files) => do
      let _ ← s.fileHeap.read f
      let add := fun x : File =>
        { x with clients := htAddUniqueEntry x.clients t.announcement.endpoint t.announcement.client }
      pure ({ s with fileHeap := s.fileHeap.modify f add }, .addClient files)

structure Event where
  thread : Nat
  found : Option Addr
  deriving DecidableEq, Repr

def stepFn (s : State) (e : Event) : Option State := do
  let t ← s.threads[e.thread]?
  let (shared, phase) ← t.step s.shared e.found
  pure { shared := shared, threads := s.threads.set e.thread { t with phase := phase } }

def Step (s : State) (e : Event) (s' : State) : Prop := stepFn s e = some s'

/-! ## Properties -/

/-- The client is in the table of the file. -/
def Shared.Lists (s : Shared) (f c : Addr) : Prop := ∃ x ∈ s.fileHeap.read f, c ∈ x.clients.values

instance (s : Shared) (f c : Addr) : Decidable (s.Lists f c) :=
  inferInstanceAs (Decidable (∃ x ∈ s.fileHeap.read f, c ∈ x.clients.values))

def State.Finished (s : State) : Prop := ∀ t ∈ s.threads, t.phase = .addClient []

instance (s : State) : Decidable s.Finished := inferInstanceAs (Decidable (∀ t ∈ s.threads, _))

/-- No key has two files, and once all threads have finished every client is in the table of the file that
a lookup of each key it seeded gives. -/
def Coherent (_ : History State Event) (s : State) : Prop :=
  s.shared.fileByHash.UniqueKeys ∧
    (s.Finished → ∀ t ∈ s.threads, ∀ c ∈ t.announcement.entries,
      ∃ f ∈ htGetEntry s.shared.fileByHash c.md5Str, s.shared.Lists f t.announcement.client)

/-- A file is registered while its key still has none, and a client is added under an endpoint that no other
client has in the table. -/
def Unhindered (s : Shared) (a : Announcement) : Phase → Prop
  | .addFile c _ _ _ => c.md5Str ∉ s.fileByHash.keys
  | .addClient (f :: _) => ∀ x ∈ s.fileHeap.read f, ∀ p ∈ x.clients, p.1 = a.endpoint → p.2 = a.client
  | _ => True

instance (s : Shared) (a : Announcement) (phase : Phase) : Decidable (Unhindered s a phase) := by
  cases phase with
  | addClient files => cases files <;> unfold Unhindered <;> infer_instance
  | _ => unfold Unhindered; infer_instance

def Unraced (_ : History State Event) (s : State) (e : Event) : Prop :=
  ∀ t ∈ s.threads[e.thread]?, Unhindered s.shared t.announcement t.phase

instance (h : History State Event) (s : State) (e : Event) : Decidable (Unraced h s e) :=
  inferInstanceAs (Decidable (∀ t ∈ s.threads[e.thread]?, _))

instance (h : History State Event) (s : State) : Decidable (Coherent h s) := by
  unfold Coherent Table.UniqueKeys
  infer_instance

/-! ## How far a thread has got -/

variable {s s' : Shared} {a : Announcement} {t : Thread} {c : FileCall} {f : Addr} {found : Option Addr}
  {phase phase' : Phase}

def Shared.Registered (s : Shared) (c : FileCall) (f : Addr) : Prop := (c.md5Str, f) ∈ s.fileByHash

/-- Tables only grow. -/
structure Grows (s s' : Shared) : Prop where
  registered : ∀ {c f}, s.Registered c f → s'.Registered c f
  lists : ∀ {f c}, s.Lists f c → s'.Lists f c

/-- The entries seen so far are registered, and once they all are, each client table that is not waited for
holds the client. -/
def Progress (s : Shared) (a : Announcement) : Phase → Prop
  | .getFile todo seeds =>
      ∃ seen, a.entries = seen ++ todo ∧ List.Forall₂ s.Registered seen seeds
  | .addFile c _ todo seeds =>
      ∃ seen, a.entries = seen ++ c :: todo ∧ List.Forall₂ s.Registered seen seeds
  | .getList c f todo seeds | .addList c f _ todo seeds | .listAdd c f _ todo seeds =>
      ∃ seen, a.entries = seen ++ c :: todo ∧ List.Forall₂ s.Registered seen seeds ∧ s.Registered c f
  | .addClient files =>
      ∀ c ∈ a.entries, ∃ f, s.Registered c f ∧ (f ∈ files ∨ s.Lists f a.client)

theorem Grows.refl (s : Shared) : Grows s s := ⟨fun h => h, fun h => h⟩

theorem Grows.forall₂ (hg : Grows s s') {seen : List FileCall} {seeds : List Addr}
    (h : List.Forall₂ s.Registered seen seeds) : List.Forall₂ s'.Registered seen seeds :=
  h.imp fun _ _ hr => hg.registered hr

theorem Progress.mono (hg : Grows s s') (hp : Progress s a phase) : Progress s' a phase := by
  cases phase with
  | getFile todo seeds =>
      obtain ⟨seen, hall, hseen⟩ := hp
      exact ⟨seen, hall, hg.forall₂ hseen⟩
  | addFile c f todo seeds =>
      obtain ⟨seen, hall, hseen⟩ := hp
      exact ⟨seen, hall, hg.forall₂ hseen⟩
  | getList c f todo seeds =>
      obtain ⟨seen, hall, hseen, hreg⟩ := hp
      exact ⟨seen, hall, hg.forall₂ hseen, hg.registered hreg⟩
  | addList c f l todo seeds =>
      obtain ⟨seen, hall, hseen, hreg⟩ := hp
      exact ⟨seen, hall, hg.forall₂ hseen, hg.registered hreg⟩
  | listAdd c f l todo seeds =>
      obtain ⟨seen, hall, hseen, hreg⟩ := hp
      exact ⟨seen, hall, hg.forall₂ hseen, hg.registered hreg⟩
  | addClient files =>
      intro c hc
      obtain ⟨f, hreg, hwait⟩ := hp c hc
      exact ⟨f, hg.registered hreg, hwait.imp_right hg.lists⟩

/-- Files that stay, with at least the clients they had. -/
theorem grows_heap {heap : Heap File} {lists : Heap (List Addr)} {byName : HashTable Addr}
    (h : ∀ f x, s.fileHeap.read f = some x → ∃ y, heap.read f = some y ∧ x.clients ⊆ y.clients) :
    Grows s { s with fileHeap := heap, listHeap := lists, fileByName := byName } where
  registered := fun h => h
  lists := by
    rintro f c ⟨x, hx, hc⟩
    obtain ⟨y, hy, hsub⟩ := h f x hx
    exact ⟨y, hy, List.map_subset _ hsub hc⟩

/-! ## One step -/

structure StepKeeps (s : Shared) (a : Announcement) (s' : Shared) (phase : Phase) : Prop where
  grows : Grows s s'
  progress : Progress s' a phase
  unique : s'.fileByHash.UniqueKeys

/-- The client is in the table behind `file_add_client`, unless another one has its endpoint. -/
theorem mem_addClient {x : File} (hfree : ∀ p ∈ x.clients, p.1 = a.endpoint → p.2 = a.client) :
    a.client ∈ (htAddUniqueEntry x.clients a.endpoint a.client).values := by
  cases hold : x.clients.lookup a.endpoint with
  | none =>
      rw [htAddUniqueEntry, Table.insertNew_of_none hold]
      simp [Table.values]
  | some c =>
      have hmem := Table.mem_of_lookup hold
      rw [htAddUniqueEntry, Table.insertNew_of_lookup hold, ← hfree _ hmem rfl]
      exact List.mem_map_of_mem hmem

theorem step_keeps (hstep : (Thread.mk a phase).step s found = some (s', phase')) (hp : Progress s a phase)
    (hu : s.fileByHash.UniqueKeys) (hok : Unhindered s a phase) : StepKeeps s a s' phase' := by
  cases phase with
  | getFile todo seeds =>
      obtain ⟨seen, hall, hseen⟩ := hp
      cases todo with
      | nil =>
          obtain ⟨rfl, rfl⟩ := Prod.mk.inj (Option.some.inj hstep)
          refine ⟨Grows.refl s, ?_, hu⟩
          intro c hc
          rw [hall, List.append_nil] at hc
          obtain ⟨f, hf, hreg⟩ := exists_of_mem_left hseen hc
          exact ⟨f, hreg, .inl hf⟩
      | cons c todo =>
          simp only [Thread.step] at hstep
          split at hstep
          · next hfinds =>
              cases found with
              | some f =>
                  obtain ⟨rfl, rfl⟩ := Prod.mk.inj (Option.some.inj hstep)
                  refine ⟨Grows.refl s, ⟨seen ++ [c], by simp [hall], ?_⟩, hu⟩
                  exact List.rel_append hseen (.cons hfinds .nil)
              | none =>
                  dsimp only at hstep
                  split at hstep
                  · cases hstep
                  · obtain ⟨rfl, rfl⟩ := Prod.mk.inj (Option.some.inj hstep)
                    refine ⟨grows_heap fun f x hx => ⟨x, Heap.read_alloc_of_read hx, List.Subset.refl _⟩, ?_, hu⟩
                    exact ⟨seen, hall, hseen⟩
          · cases hstep
  | addFile c f todo seeds =>
      obtain ⟨seen, hall, hseen⟩ := hp
      obtain ⟨rfl, rfl⟩ := Prod.mk.inj (Option.some.inj hstep)
      have hgrows : Grows s { s with fileByHash := htAddEntry s.fileByHash c.md5Str f } :=
        ⟨fun h => List.mem_append_left _ h, fun h => h⟩
      refine ⟨hgrows, ⟨seen, hall, hgrows.forall₂ hseen, List.mem_append_right _ List.mem_cons_self⟩, ?_⟩
      exact hu.add (Table.lookup_eq_none_iff.2 hok) f
  | getList c f todo seeds =>
      obtain ⟨seen, hall, hseen, hreg⟩ := hp
      simp only [Thread.step] at hstep
      split at hstep
      · cases found with
        | some l =>
            obtain ⟨rfl, rfl⟩ := Prod.mk.inj (Option.some.inj hstep)
            exact ⟨Grows.refl s, ⟨seen, hall, hseen, hreg⟩, hu⟩
        | none =>
            obtain ⟨rfl, rfl⟩ := Prod.mk.inj (Option.some.inj hstep)
            exact ⟨⟨fun h => h, fun h => h⟩, ⟨seen, hall, hseen, hreg⟩, hu⟩
      · cases hstep
  | addList c f l todo seeds =>
      obtain ⟨seen, hall, hseen, hreg⟩ := hp
      obtain ⟨rfl, rfl⟩ := Prod.mk.inj (Option.some.inj hstep)
      exact ⟨⟨fun h => h, fun h => h⟩, ⟨seen, hall, hseen, hreg⟩, hu⟩
  | listAdd c f l todo seeds =>
      obtain ⟨seen, hall, hseen, hreg⟩ := hp
      obtain ⟨rfl, rfl⟩ := Prod.mk.inj (Option.some.inj hstep)
      refine ⟨⟨fun h => h, fun h => h⟩, ⟨seen ++ [c], by simp [hall], ?_⟩, hu⟩
      exact List.rel_append hseen (.cons hreg .nil)
  | addClient files =>
      cases files with
      | nil => cases hstep
      | cons f files =>
          simp only [Thread.step, Option.bind_eq_bind, Option.bind_eq_some_iff] at hstep
          obtain ⟨x, hx, hpure⟩ := hstep
          obtain ⟨rfl, rfl⟩ := Prod.mk.inj (Option.some.inj hpure)
          have hread := Heap.read_modify s.fileHeap f
          have hgrows : Grows s { s with fileHeap := s.fileHeap.modify f fun x : File =>
              { x with clients := htAddUniqueEntry x.clients a.endpoint a.client } } := by
            refine grows_heap fun g y hy => ?_
            rw [hread, hy]
            split
            · exact ⟨_, rfl, fun p hp => Table.mem_insertNew_of_mem hp⟩
            · exact ⟨y, rfl, List.Subset.refl _⟩
          refine ⟨hgrows, fun c hc => ?_, hu⟩
          obtain ⟨g, hreg, hwait⟩ := hp c hc
          refine ⟨g, hreg, ?_⟩
          rcases hwait with hmem | hlists
          · rcases List.mem_cons.1 hmem with rfl | hmem
            · refine .inr ⟨{ x with clients := htAddUniqueEntry x.clients a.endpoint a.client }, ?_,
                mem_addClient (hok x hx)⟩
              rw [hread, if_pos rfl, hx]
              rfl
            · exact .inl hmem
          · exact .inr (hgrows.lists hlists)

/-! ## Runs -/

/-- Every thread has got as far as its phase says, and no key has two files. -/
structure Inv (s : State) : Prop where
  unique : s.shared.fileByHash.UniqueKeys
  progress : ∀ t ∈ s.threads, Progress s.shared t.announcement t.phase

theorem inv_init (as : List Announcement) : Inv (init as) where
  unique := List.nodup_nil
  progress := by
    intro t ht
    obtain ⟨a, -, rfl⟩ := List.mem_map.1 ht
    exact ⟨[], rfl, .nil⟩

theorem inv_step {h : History State Event} {s s' : State} {e : Event} (hinv : Inv s) (hok : Unraced h s e)
    (hs : Step s e s') : Inv s' := by
  simp only [Step, stepFn, Option.bind_eq_bind, Option.bind_eq_some_iff] at hs
  obtain ⟨⟨a, phase⟩, ht, ⟨shared, phase'⟩, hstep, hpure⟩ := hs
  obtain rfl := Option.some.inj hpure
  have hmem : (⟨a, phase⟩ : Thread) ∈ s.threads := List.mem_of_getElem? ht
  have hkeeps := step_keeps hstep (hinv.progress _ hmem) hinv.unique (hok _ ht)
  refine ⟨hkeeps.unique, fun t ht' => ?_⟩
  rcases List.mem_or_eq_of_mem_set ht' with hold | rfl
  · exact (hinv.progress t hold).mono hkeeps.grows
  · exact hkeeps.progress

theorem Inv.coherent {h : History State Event} {s : State} (hinv : Inv s) : Coherent h s := by
  refine ⟨hinv.unique, fun hfin t ht c hc => ?_⟩
  have hp := hinv.progress t ht
  rw [hfin t ht] at hp
  obtain ⟨f, hreg, hwait⟩ := hp c hc
  exact ⟨f, Table.lookup_of_mem hinv.unique hreg, hwait.resolve_left List.not_mem_nil⟩

/-- Threads that are never raced keep the registry coherent, however their steps interleave. -/
theorem coherent_of_unraced {as : List Announcement} {h : History State Event} {s : State}
    (hrun : Run Step (init as) h s) (hok : StepsMeet Unraced h) : Along Coherent h s :=
  hrun.along_of_stepsMeet (I := fun _ s => Inv s) (inv_init as)
    (fun {h s e _} hinv (hmeets : Unraced h s e) hs => inv_step hinv hmeets hs) Inv.coherent hok

/-! ## Two announcements of one key -/

def filmEntry : FileCall := ⟨"film".toList, 10, 4, filmKey⟩

/-- Two clients that seed the same file. -/
def twoSeeders : List Announcement :=
  [⟨0, "127.0.0.1:6881".toList, [filmEntry]⟩, ⟨1, "127.0.0.1:6882".toList, [filmEntry]⟩]

theorem exists_run_of_replay (es : List Event) {P : History State Event → State → Prop} [∀ h s, Decidable (P h s)]
    (hre : (replay stepFn [] (init twoSeeders) es).any (fun r => P r.1 r.2) = true) :
    ∃ h s, Run Step (init twoSeeders) h s ∧ P h s :=
  Run.exists_of_replay id es hre

/-- The second thread looks the key up once it is registered. -/
theorem coherent_of_unraced_twoSeeders : ∃ h s, Run Step (init twoSeeders) h s ∧ s.Finished ∧ Coherent h s := by
  obtain ⟨h, s, hrun, hfin, hok⟩ := exists_run_of_replay
    [⟨0, none⟩, ⟨0, none⟩, ⟨1, some 0⟩, ⟨0, none⟩, ⟨1, none⟩, ⟨0, none⟩, ⟨1, none⟩, ⟨0, none⟩, ⟨0, none⟩,
      ⟨0, none⟩]
    (P := fun h s => s.Finished ∧ StepsMeet Unraced h) (by decide +kernel)
  exact ⟨h, s, hrun, hfin, (coherent_of_unraced hrun hok).last⟩

/-- Both threads miss the key: it gets two files, and each of them lists one client only. -/
theorem two_files_for_one_key : ∃ h s, Run Step (init twoSeeders) h s ∧ s.Finished ∧ ¬ Along Coherent h s ∧
    ∀ p ∈ s.shared.fileByHash, p.1 = filmKey ∧ ¬ (s.shared.Lists p.2 0 ∧ s.shared.Lists p.2 1) := by
  obtain ⟨h, s, hrun, hfin, hfails, hlost⟩ := exists_run_of_replay
    [⟨0, none⟩, ⟨1, none⟩, ⟨0, none⟩, ⟨1, none⟩, ⟨0, none⟩, ⟨0, none⟩, ⟨0, none⟩, ⟨0, none⟩, ⟨0, none⟩,
      ⟨1, some 0⟩, ⟨1, none⟩, ⟨1, none⟩, ⟨1, none⟩]
    (P := fun h s => s.Finished ∧ ¬ Along Coherent h s ∧
      ∀ p ∈ s.shared.fileByHash, p.1 = filmKey ∧ ¬ (s.shared.Lists p.2 0 ∧ s.shared.Lists p.2 1))
    (by decide +kernel)
  exact ⟨h, s, hrun, hfin, hfails, hlost⟩

end SeedThreads
end CTracker
end Raiezau
