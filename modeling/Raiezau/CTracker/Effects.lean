import Raiezau.CTracker.Run

/-!
# Effects — what one step of the tracker does

One inversion lemma for each kind of step.  They speak of client records, of the key a file is
registered under and of `Holds`, the entries of the client tables; with them no later proof has to
unfold a handler.  `WellFormed` is what every reachable state satisfies, whatever the run.
-/

namespace Raiezau
namespace CTracker

open Memory CUtil Text Machine Assoc

variable {st st' st₁ : Tracker} {c f : Addr} {key : CString}

/-! ## Well-formed states -/

/-- The registry: every file object is registered under its own key, and under that one only. -/
structure Registry (st : Tracker) : Prop where
  unique : st.fileByHash.UniqueKeys
  file_of_key : ∀ {key f}, fileGetByKey st key = some f → ∃ x, st.file f = some x ∧ x.md5Str = key
  key_of_file : ∀ {f x}, st.file f = some x → fileGetByKey st x.md5Str = some f

theorem Registry.congr (hreg : Registry st) (hfile : ∀ f, st'.file f = st.file f)
    (hhash : st'.fileByHash = st.fileByHash) : Registry st' where
  unique := hhash ▸ hreg.unique
  file_of_key := by
    intro key f hk
    rw [hfile]
    exact hreg.file_of_key (by rw [← hk, fileGetByKey, fileGetByKey, hhash])
  key_of_file := by
    intro f x hx
    rw [hfile] at hx
    rw [fileGetByKey, hhash]
    exact hreg.key_of_file hx

/-- What holds in every reachable state, whatever the requests were. -/
structure WellFormed (st : Tracker) : Prop extends Registry st where
  tables : ∀ {f x}, st.file f = some x → x.clients.UniqueKeys
  listed : ∀ {c cl f}, st.client c = some cl → f ∈ cl.files → ∃ x, st.file f = some x
  keyed : ∀ {c cl}, st.client c = some cl → cl.files ≠ [] → cl.listenAddrKey ≠ none
  known : ∀ {f key c}, st.Holds f key c → c < st.clientHeap.fresh
  endpoint : ∀ {f key c cl}, st.Holds f key c → st.client c = some cl → cl.listenAddrKey ≠ none

theorem Tracker.Holds.file {x : File} (hf : st.file f = some x) :
    st.Holds f key c ↔ (key, c) ∈ x.clients := by
  simp [Tracker.Holds, hf]

theorem Tracker.Holds.file_some (hh : st.Holds f key c) : ∃ x, st.file f = some x := by
  obtain ⟨x, hx, -⟩ := hh
  exact ⟨x, hx⟩

theorem WellFormed.holds_unique (hw : WellFormed st) {c₁ c₂ : Addr} (h₁ : st.Holds f key c₁)
    (h₂ : st.Holds f key c₂) : c₁ = c₂ := by
  obtain ⟨x, hx, hm₁⟩ := h₁
  have hm₂ : (key, c₂) ∈ x.clients := (Tracker.Holds.file hx).1 h₂
  have hu := hw.tables hx
  have : some c₁ = some c₂ := by
    rw [← Table.lookup_of_mem hu hm₁, ← Table.lookup_of_mem hu hm₂]
  exact Option.some.inj this

theorem Tracker.occupied_iff {x : File} (hf : st.file f = some x) :
    st.Occupied f key ↔ htGetEntry x.clients key ≠ none := by
  have hkeys : htGetEntry x.clients key = none ↔ key ∉ x.clients.keys := Table.lookup_eq_none_iff
  simp [Tracker.Occupied, Tracker.Holds.file hf, hkeys, Table.keys]

/-! ## Registering files -/

/-- The state has gained files, all with an empty client table; nothing else has changed. -/
structure Gains (st st' : Tracker) : Prop where
  clientHeap : st'.clientHeap = st.clientHeap
  clients : st'.clients = st.clients
  old : ∀ {f x}, st.file f = some x → st'.file f = some x
  new : ∀ {f x}, st'.file f = some x → st.file f = some x ∨ (st.file f = none ∧ x.clients = [])
  lookup : ∀ {key f}, fileGetByKey st key = some f → fileGetByKey st' key = some f

theorem Gains.refl (st : Tracker) : Gains st st where
  clientHeap := rfl
  clients := rfl
  old := fun h => h
  new := fun h => .inl h
  lookup := fun h => h

theorem Gains.trans (h₁ : Gains st st₁) (h₂ : Gains st₁ st') : Gains st st' where
  clientHeap := h₂.clientHeap.trans h₁.clientHeap
  clients := h₂.clients.trans h₁.clients
  old := fun h => h₂.old (h₁.old h)
  lookup := fun h => h₂.lookup (h₁.lookup h)
  new := by
    intro f x h
    rcases h₂.new h with h | ⟨hnone, hempty⟩
    · exact h₁.new h
    · refine .inr ⟨?_, hempty⟩
      cases hf : st.file f with
      | none => rfl
      | some y => rw [h₁.old hf] at hnone; cases hnone

theorem Gains.client (h : Gains st st') (c : Addr) : st'.client c = st.client c := by
  unfold Tracker.client
  rw [h.clientHeap]

theorem Gains.holds (h : Gains st st') : st'.Holds f key c ↔ st.Holds f key c := by
  constructor
  · rintro ⟨x, hx, hm⟩
    rcases h.new hx with hx | ⟨-, hempty⟩
    · exact ⟨x, hx, hm⟩
    · simp [hempty] at hm
  · rintro ⟨x, hx, hm⟩
    exact ⟨x, h.old hx, hm⟩

theorem fileNew_inv {filename : CString} {length pieceSize : Nat}
    (h : fileNew st filename length pieceSize key = some (st', f)) :
    ∃ x : File, x.md5Str = key ∧ x.clients = [] ∧ f = st.fileHeap.fresh ∧
      st'.fileHeap = st.fileHeap.alloc x ∧ st'.fileByHash = st.fileByHash.add key f ∧
      st'.clientHeap = st.clientHeap ∧ st'.clients = st.clients := by
  unfold fileNew at h
  split at h
  · cases h
  · simp only [Option.some.injEq, Prod.mk.injEq] at h
    obtain ⟨rfl, rfl⟩ := h
    exact ⟨_, rfl, rfl, rfl, rfl, rfl, rfl, rfl⟩

theorem file_alloc {x : File} (h : st'.fileHeap = st.fileHeap.alloc x) (g : Addr) :
    st'.file g = if g = st.fileHeap.fresh then some x else st.file g := by
  rw [Tracker.file, h, Heap.read_alloc]
  rfl

theorem fileNew_spec (hreg : Registry st) (hfree : fileGetByKey st key = none)
    {filename : CString} {length pieceSize : Nat}
    (h : fileNew st filename length pieceSize key = some (st', f)) :
    Registry st' ∧ Gains st st' ∧ fileGetByKey st' key = some f ∧
      ∀ k, fileGetByKey st' k ≠ none ↔ fileGetByKey st k ≠ none ∨ k = key := by
  obtain ⟨x, hkey, hempty, rfl, hheap, hhash, hcl, hcs⟩ := fileNew_inv h
  have hfresh : st.file st.fileHeap.fresh = none := Heap.read_fresh _
  have hlook : ∀ k, fileGetByKey st' k =
      (fileGetByKey st k).or (if key = k then some st.fileHeap.fresh else none) := by
    intro k
    rw [fileGetByKey, hhash]
    exact Table.lookup_add _ _ _ _
  refine ⟨⟨?_, ?_, ?_⟩, ⟨hcl, hcs, ?_, ?_, ?_⟩, ?_, ?_⟩
  · rw [hhash]
    exact hreg.unique.add hfree _
  · intro k g hk
    rw [hlook] at hk
    cases hold : fileGetByKey st k with
    | some g' =>
        obtain rfl : g' = g := by simpa [hold] using hk
        obtain ⟨y, hy, hyk⟩ := hreg.file_of_key hold
        refine ⟨y, ?_, hyk⟩
        rw [file_alloc hheap, if_neg, hy]
        rintro rfl
        rw [hfresh] at hy
        cases hy
    | none =>
        by_cases hkk : key = k
        · obtain rfl : st.fileHeap.fresh = g := by simpa [hold, hkk] using hk
          exact ⟨x, by rw [file_alloc hheap, if_pos rfl], hkey.trans hkk⟩
        · simp [hold, hkk] at hk
  · intro g y hy
    rw [file_alloc hheap] at hy
    split at hy
    · next hg =>
        obtain rfl : x = y := Option.some.inj hy
        rw [hlook, hkey, hfree, if_pos rfl, hg]
        rfl
    · rw [hlook, hreg.key_of_file hy]
      rfl
  · intro g y hy
    rw [file_alloc hheap, if_neg, hy]
    rintro rfl
    rw [hfresh] at hy
    cases hy
  · intro g y hy
    rw [file_alloc hheap] at hy
    split at hy
    · next hg =>
        obtain rfl : x = y := Option.some.inj hy
        exact .inr ⟨hg ▸ hfresh, hempty⟩
    · exact .inl hy
  · intro k g hk
    rw [hlook, hk]
    rfl
  · rw [hlook, hfree, if_pos rfl]
    rfl
  · intro k
    rw [hlook]
    by_cases hk : key = k
    · simp [hk]
    · cases fileGetByKey st k <;> simp [hk, Ne.symm hk]

theorem fileGetOrCreate_spec (hreg : Registry st) {filename : CString} {length pieceSize : Int}
    (h : fileGetOrCreate st filename length pieceSize key = some (st', f)) :
    Registry st' ∧ Gains st st' ∧ fileGetByKey st' key = some f ∧
      ∀ k, fileGetByKey st' k ≠ none ↔ fileGetByKey st k ≠ none ∨ k = key := by
  unfold fileGetOrCreate at h
  cases hk : fileGetByKey st key with
  | some g =>
      rw [hk] at h
      simp only [Option.some.injEq, Prod.mk.injEq] at h
      obtain ⟨rfl, rfl⟩ := h
      refine ⟨hreg, Gains.refl st, hk, fun k => ⟨.inl, ?_⟩⟩
      rintro (hk' | rfl)
      · exact hk'
      · simp [hk]
  | none =>
      rw [hk] at h
      exact fileNew_spec hreg hk h

/-- The seed list holds, entry by entry, the file registered under the entry's key. -/
theorem getSeedFiles_spec {tab : List CString} {l : List Addr} (hreg : Registry st)
    (h : getSeedFiles st tab = some (st', l)) :
    Registry st' ∧ Gains st st' ∧
      List.Forall₂ (fun k f => fileGetByKey st' k = some f) (entryKeys tab) l ∧
      ∀ k, fileGetByKey st' k ≠ none ↔ fileGetByKey st k ≠ none ∨ k ∈ entryKeys tab := by
  induction st, tab using getSeedFiles.induct generalizing l with
  | case1 st name size piece key tab ih =>
      simp only [getSeedFiles, Option.bind_eq_bind, Option.bind_eq_some_iff] at h
      obtain ⟨⟨st₁, f⟩, hget, ⟨st₂, l'⟩, hrest, hpure⟩ := h
      simp only [Option.pure_def, Option.some.injEq, Prod.mk.injEq] at hpure
      obtain ⟨rfl, rfl⟩ := hpure
      obtain ⟨hreg₁, hg₁, hkey₁, hdom₁⟩ := fileGetOrCreate_spec hreg hget
      obtain ⟨hreg₂, hg₂, hall, hdom₂⟩ := ih st₁ hreg₁ hrest
      refine ⟨hreg₂, hg₁.trans hg₂, ?_, ?_⟩
      · rw [entryKeys]
        exact List.Forall₂.cons (hg₂.lookup hkey₁) hall
      · intro k
        rw [hdom₂, hdom₁, entryKeys, List.mem_cons, or_assoc]
  | case2 tab st hshort =>
      have hkeys : entryKeys tab = [] := by
        rw [entryKeys]
        exact hshort
      rw [getSeedFiles] at h
      · simp only [Option.pure_def, Option.some.injEq, Prod.mk.injEq] at h
        obtain ⟨rfl, rfl⟩ := h
        refine ⟨hreg, Gains.refl st, ?_, ?_⟩
        · rw [hkeys]
          exact List.Forall₂.nil
        · simp [hkeys]
      · exact hshort

theorem getSeedFileList_spec {seedStr : CString} {l : List Addr} (hreg : Registry st)
    (h : getSeedFileList st seedStr = some (st', l)) :
    Registry st' ∧ Gains st st' ∧
      List.Forall₂ (fun k f => fileGetByKey st' k = some f) (seedKeys seedStr) l ∧
      ∀ k, fileGetByKey st' k ≠ none ↔ fileGetByKey st k ≠ none ∨ k ∈ seedKeys seedStr := by
  unfold getSeedFileList at h
  unfold seedKeys
  by_cases hfour : (stringSplit seedStr [' ']).length % 4 ≠ 0
  · simp only [hfour, if_true, Option.some.injEq, Prod.mk.injEq, ne_eq, not_false_eq_true] at h ⊢
    obtain ⟨rfl, rfl⟩ := h
    exact ⟨hreg, Gains.refl st, List.Forall₂.nil, by simp⟩
  · simp only [hfour, if_false] at h ⊢
    exact getSeedFiles_spec hreg h

/-! ## Changing client tables -/

/-- Only client tables differ. -/
structure Retabled (st st' : Tracker) : Prop where
  clientHeap : st'.clientHeap = st.clientHeap
  clients : st'.clients = st.clients
  fileByHash : st'.fileByHash = st.fileByHash
  file : ∀ f, ∃ g : File → HashTable Addr,
    st'.file f = (st.file f).map fun x => { x with clients := g x }

theorem Retabled.refl (st : Tracker) : Retabled st st where
  clientHeap := rfl
  clients := rfl
  fileByHash := rfl
  file := fun f => ⟨File.clients, by cases st.file f <;> rfl⟩

theorem Retabled.trans (h₁ : Retabled st st₁) (h₂ : Retabled st₁ st') : Retabled st st' where
  clientHeap := h₂.clientHeap.trans h₁.clientHeap
  clients := h₂.clients.trans h₁.clients
  fileByHash := h₂.fileByHash.trans h₁.fileByHash
  file := by
    intro f
    obtain ⟨g₁, hg₁⟩ := h₁.file f
    obtain ⟨g₂, hg₂⟩ := h₂.file f
    refine ⟨fun x => g₂ { x with clients := g₁ x }, ?_⟩
    rw [hg₂, hg₁]
    cases st.file f <;> rfl

theorem Retabled.client (h : Retabled st st') (c : Addr) : st'.client c = st.client c := by
  unfold Tracker.client
  rw [h.clientHeap]

theorem Retabled.fileGetByKey (h : Retabled st st') (key : CString) :
    fileGetByKey st' key = fileGetByKey st key := by
  unfold CTracker.fileGetByKey
  rw [h.fileByHash]

theorem Retabled.file_some (h : Retabled st st') {x : File} (hx : st.file f = some x) :
    ∃ t, st'.file f = some { x with clients := t } := by
  obtain ⟨g, hg⟩ := h.file f
  exact ⟨g x, by rw [hg, hx]; rfl⟩

theorem Retabled.of_file_some (h : Retabled st st') {x' : File} (hx : st'.file f = some x') :
    ∃ x, st.file f = some x ∧ x' = { x with clients := x'.clients } := by
  obtain ⟨g, hg⟩ := h.file f
  rw [hg, Option.map_eq_some_iff] at hx
  obtain ⟨x, hx, rfl⟩ := hx
  exact ⟨x, hx, rfl⟩

theorem Retabled.registry (h : Retabled st st') (hreg : Registry st) : Registry st' where
  unique := h.fileByHash ▸ hreg.unique
  file_of_key := by
    intro key f hk
    obtain ⟨x, hx, rfl⟩ := hreg.file_of_key ((h.fileGetByKey key).symm.trans hk)
    obtain ⟨t, ht⟩ := h.file_some hx
    exact ⟨_, ht, rfl⟩
  key_of_file := by
    intro f x' hx'
    obtain ⟨x, hx, heq⟩ := h.of_file_some hx'
    have hkey : x'.md5Str = x.md5Str := by rw [heq]
    rw [h.fileGetByKey, hkey]
    exact hreg.key_of_file hx

theorem file_modifyFile (st : Tracker) (f g : Addr) (u : File → File) :
    (st.modifyFile f u).file g = if g = f then (st.file g).map u else st.file g :=
  Heap.read_modify _ _ _ _

theorem retabled_modifyFile (st : Tracker) (f : Addr) (t : HashTable Addr → HashTable Addr) :
    Retabled st (st.modifyFile f fun x => { x with clients := t x.clients }) where
  clientHeap := rfl
  clients := rfl
  fileByHash := rfl
  file := by
    intro g
    rw [file_modifyFile]
    split
    · exact ⟨fun x => t x.clients, rfl⟩
    · exact ⟨File.clients, by cases st.file g <;> rfl⟩

/-- The entries of one table, before and after it is changed. -/
theorem holds_modifyFile {x : File} (hx : st.file f = some x)
    (t : HashTable Addr → HashTable Addr) {g : Addr} {k : CString} {e : Addr} :
    (st.modifyFile f fun x => { x with clients := t x.clients }).Holds g k e ↔
      if g = f then (k, e) ∈ t x.clients else st.Holds g k e := by
  by_cases hg : g = f
  · subst hg
    simp [Tracker.Holds, file_modifyFile, hx]
  · simp [Tracker.Holds, file_modifyFile, hg]

/-! ### Adding a client to the files of a list -/

/-- Client `c` has been added, under `ekey`, to the table of each file of `l` that had that key free. -/
structure Enrolled (c : Addr) (ekey : Option CString) (l : List Addr) (st st' : Tracker) : Prop
    extends Retabled st st' where
  key : l ≠ [] → ekey ≠ none
  tables : (∀ {f x}, st.file f = some x → x.clients.UniqueKeys) →
    ∀ {f x}, st'.file f = some x → x.clients.UniqueKeys
  holds : ∀ {f k e}, st'.Holds f k e ↔
    st.Holds f k e ∨ (e = c ∧ ekey = some k ∧ f ∈ l ∧ ¬ st.Occupied f k)

theorem Enrolled.occupied {ekey : Option CString} {l : List Addr} (h : Enrolled c ekey l st st')
    {k : CString} : st'.Occupied f k ↔ st.Occupied f k ∨ (ekey = some k ∧ f ∈ l) := by
  simp only [Tracker.Occupied, h.holds]
  constructor
  · rintro ⟨e, he | ⟨-, hk, hl, -⟩⟩
    · exact .inl ⟨e, he⟩
    · exact .inr ⟨hk, hl⟩
  · rintro (⟨e, he⟩ | ⟨hk, hl⟩)
    · exact ⟨e, .inl he⟩
    · by_cases hocc : st.Occupied f k
      · obtain ⟨e, he⟩ := hocc
        exact ⟨e, .inl he⟩
      · exact ⟨c, .inr ⟨rfl, hk, hl, hocc⟩⟩

theorem Enrolled.append {ekey : Option CString} {l₁ l₂ : List Addr}
    (h₁ : Enrolled c ekey l₁ st st₁) (h₂ : Enrolled c ekey l₂ st₁ st') :
    Enrolled c ekey (l₁ ++ l₂) st st' where
  toRetabled := h₁.toRetabled.trans h₂.toRetabled
  key := by
    intro hne
    by_cases hnil : l₁ = []
    · exact h₂.key (by simpa [hnil] using hne)
    · exact h₁.key hnil
  tables := fun ht => h₂.tables (fun hx => h₁.tables ht hx)
  holds := by
    intro f k e
    rw [h₂.holds, h₁.holds, h₁.occupied, List.mem_append]
    constructor
    · rintro ((h | ⟨he, hk, hl, hocc⟩) | ⟨he, hk, hl, hocc⟩)
      · exact .inl h
      · exact .inr ⟨he, hk, .inl hl, hocc⟩
      · exact .inr ⟨he, hk, .inr hl, fun h => hocc (.inl h)⟩
    · rintro (h | ⟨he, hk, hl, hocc⟩)
      · exact .inl (.inl h)
      · by_cases hl₁ : f ∈ l₁
        · exact .inl (.inr ⟨he, hk, hl₁, hocc⟩)
        · refine .inr ⟨he, hk, hl.resolve_left hl₁, ?_⟩
          rintro (h | ⟨-, h⟩)
          · exact hocc h
          · exact hl₁ h

theorem fileAddClient_spec {cl : Client} (hc : st.client c = some cl)
    (h : fileAddClient c st f = some st') : Enrolled c cl.listenAddrKey [f] st st' := by
  simp only [fileAddClient, hc, Option.bind_eq_bind, Option.bind_some, Option.bind_eq_some_iff] at h
  obtain ⟨key, hkey, x, hx, hpure⟩ := h
  obtain rfl : (st.modifyFile f fun x => { x with clients := htAddUniqueEntry x.clients key c }) = st' :=
    by simpa using hpure
  have hret := retabled_modifyFile st f (fun t => htAddUniqueEntry t key c)
  refine ⟨hret, by simp [hkey], ?_, ?_⟩
  · intro ht g y hy
    rw [file_modifyFile] at hy
    split at hy
    · next hg =>
        subst hg
        rw [hx] at hy
        obtain rfl := Option.some.inj hy
        exact (ht hx).insertNew key c
    · exact ht hy
  · intro g k e
    rw [holds_modifyFile hx (fun t => htAddUniqueEntry t key c)]
    by_cases hg : g = f
    · subst hg
      have hmem : (k, e) ∈ htAddUniqueEntry x.clients key c ↔
          (k, e) ∈ x.clients ∨ ((k, e) = (key, c) ∧ htGetEntry x.clients key = none) :=
        Table.mem_insertNew_iff
      rw [if_pos rfl, hmem, Tracker.Holds.file hx, Tracker.occupied_iff hx, hkey]
      constructor
      · rintro (h | ⟨heq, hfree⟩)
        · exact .inl h
        · obtain ⟨rfl, rfl⟩ : k = key ∧ e = c := by simpa using heq
          exact .inr ⟨rfl, rfl, by simp, by simpa using hfree⟩
      · rintro (h | ⟨rfl, hk, -, hfree⟩)
        · exact .inl h
        · obtain rfl : key = k := Option.some.inj hk
          exact .inr ⟨rfl, by simpa using hfree⟩
    · simp [hg]

theorem foldlM_fileAddClient_spec {cl : Client} {l : List Addr} (hc : st.client c = some cl)
    (h : l.foldlM (fileAddClient c) st = some st') : Enrolled c cl.listenAddrKey l st st' := by
  induction l generalizing st with
  | nil =>
      obtain rfl : st = st' := by simpa using h
      exact ⟨Retabled.refl st, by simp, fun ht {_ _} hx => ht hx, by simp⟩
  | cons f l ih =>
      simp only [List.foldlM_cons, Option.bind_eq_bind, Option.bind_eq_some_iff] at h
      obtain ⟨st₁, hadd, hrest⟩ := h
      have h₁ := fileAddClient_spec hc hadd
      have hc₁ : st₁.client c = some cl := (h₁.toRetabled.client c).trans hc
      exact h₁.append (ih hc₁ hrest)

/-! ### Removing a client's endpoint from the files of a list -/

/-- Whatever was stored under `ekey` has been removed from the tables of the files of `l`. -/
structure Struck (ekey : Option CString) (l : List Addr) (st st' : Tracker) : Prop
    extends Retabled st st' where
  tables : ∀ {f x}, st'.file f = some x → x.clients.UniqueKeys
  holds : ∀ {f k e}, st'.Holds f k e ↔ st.Holds f k e ∧ ¬ (f ∈ l ∧ ekey = some k)

theorem fileRemoveClient_spec {cl : Client} (hc : st.client c = some cl)
    (ht : ∀ {f x}, st.file f = some x → x.clients.UniqueKeys)
    (h : fileRemoveClient c st f = some st') : Struck cl.listenAddrKey [f] st st' := by
  simp only [fileRemoveClient, hc, Option.bind_eq_bind, Option.bind_some,
    Option.bind_eq_some_iff] at h
  obtain ⟨x, hx, h⟩ := h
  cases hkey : cl.listenAddrKey with
  | none =>
      simp only [hkey] at h
      split at h
      · next hempty =>
          obtain rfl : st = st' := by simpa using h
          refine ⟨Retabled.refl st, ht, by simp⟩
      · cases h
  | some key =>
      simp only [hkey] at h
      obtain rfl : (st.modifyFile f fun x => { x with clients := htRemoveEntry x.clients key }) = st' :=
        by simpa using h
      refine ⟨retabled_modifyFile st f (fun t => htRemoveEntry t key), ?_, ?_⟩
      · intro g y hy
        rw [file_modifyFile] at hy
        split at hy
        · next hg =>
            subst hg
            rw [hx] at hy
            obtain rfl := Option.some.inj hy
            exact (ht hx).erase key
        · exact ht hy
      · intro g k e
        rw [holds_modifyFile hx (fun t => htRemoveEntry t key)]
        by_cases hg : g = f
        · subst hg
          have hmem : (k, e) ∈ htRemoveEntry x.clients key ↔ (k, e) ∈ x.clients ∧ k ≠ key :=
            Table.mem_erase_iff (ht hx)
          rw [if_pos rfl, hmem, Tracker.Holds.file hx]
          simp [eq_comm]
        · simp [hg]

theorem foldlM_fileRemoveClient_spec {cl : Client} {l : List Addr} (hc : st.client c = some cl)
    (ht : ∀ {f x}, st.file f = some x → x.clients.UniqueKeys)
    (h : l.foldlM (fileRemoveClient c) st = some st') : Struck cl.listenAddrKey l st st' := by
  induction l generalizing st with
  | nil =>
      obtain rfl : st = st' := by simpa using h
      exact ⟨Retabled.refl st, ht, by simp⟩
  | cons f l ih =>
      simp only [List.foldlM_cons, Option.bind_eq_bind, Option.bind_eq_some_iff] at h
      obtain ⟨st₁, hrem, hrest⟩ := h
      have h₁ := fileRemoveClient_spec hc ht hrem
      have hc₁ : st₁.client c = some cl := (h₁.toRetabled.client c).trans hc
      have h₂ := ih hc₁ h₁.tables hrest
      refine ⟨h₁.toRetabled.trans h₂.toRetabled, h₂.tables, ?_⟩
      intro g k e
      rw [h₂.holds, h₁.holds, List.mem_singleton, List.mem_cons]
      tauto

end CTracker
end Raiezau
