import Raiezau.CTracker.Effects
import Raiezau.Machine.Fold

/-!
# Steps — inversion of the three kinds of step, and well-formedness of reachable states

`Joins`, `Declares` and `Leaves` are everything the later proofs use about a connection, an accepted
`announce` or `update`, and a disconnection; every other request leaves the state as it was.
-/

namespace Raiezau
namespace CTracker

open Memory CUtil Text Machine Assoc

variable {st st' st₁ : Tracker} {c f : Addr} {key : CString} {cl cl' : Client} {d : Declaration}

/-! ## The shapes of a step -/

structure Joins (st st' : Tracker) : Prop where
  file : ∀ f, st'.file f = st.file f
  fileByHash : st'.fileByHash = st.fileByHash
  old : ∀ {c}, c ≠ st.clientHeap.fresh → st'.client c = st.client c
  new : ∃ cl, st'.client st.clientHeap.fresh = some cl ∧ cl.files = [] ∧ cl.listenAddrKey = none
  fresh : st'.clientHeap.fresh = st.clientHeap.fresh + 1

structure Declares (c : Addr) (d : Declaration) (cl cl' : Client) (st st' : Tracker) : Prop where
  before : st.client c = some cl
  after : st'.client c = some cl'
  others : ∀ {e}, e ≠ c → st'.client e = st.client e
  fresh : st'.clientHeap.fresh = st.clientHeap.fresh
  endpoint : cl'.listenAddrKey = d.endpoint cl
  registry : Registry st'
  tables : ∀ {f x}, st'.file f = some x → x.clients.UniqueKeys
  file_old : ∀ {f x}, st.file f = some x → ∃ x', st'.file f = some x' ∧ x'.md5Str = x.md5Str
  listed : ∀ {f}, f ∈ cl'.files → ∃ x, st'.file f = some x
  keyed : cl'.files ≠ [] → cl'.listenAddrKey ≠ none
  names : ∀ {f x}, st'.file f = some x → (f ∈ cl'.files ↔ d.Names st x.md5Str)
  domain : ∀ {k}, fileGetByKey st' k ≠ none ↔ fileGetByKey st k ≠ none ∨ k ∈ d.seedKeys
  holds : ∀ {f k e}, st'.Holds f k e ↔
    st.Holds f k e ∨ (e = c ∧ cl'.listenAddrKey = some k ∧ f ∈ cl'.files ∧ ¬ st.Occupied f k)

structure Leaves (c : Addr) (cl : Client) (st st' : Tracker) : Prop where
  before : st.client c = some cl
  after : st'.client c = none
  others : ∀ {e}, e ≠ c → st'.client e = st.client e
  fresh : st'.clientHeap.fresh = st.clientHeap.fresh
  registry : Registry st'
  tables : ∀ {f x}, st'.file f = some x → x.clients.UniqueKeys
  file_old : ∀ {f x}, st.file f = some x → ∃ x', st'.file f = some x' ∧ x'.md5Str = x.md5Str
  holds : ∀ {f k e}, st'.Holds f k e ↔
    st.Holds f k e ∧ ¬ (f ∈ cl.files ∧ cl.listenAddrKey = some k)

/-! ## Connections -/

theorem clientGetOrCreate_spec (st : Tracker) (socket : Int) (addr : SockAddr) :
    (clientGetOrCreate st socket addr).1 = st ∨ Joins st (clientGetOrCreate st socket addr).1 := by
  simp only [clientGetOrCreate]
  cases htGetEntry st.clients (sockaddrStringify addr) with
  | some c => exact .inl rfl
  | none =>
      refine .inr ⟨fun _ => rfl, rfl, ?_, ?_, Heap.fresh_alloc _ _⟩
      · intro c hc
        exact Heap.read_alloc_of_ne hc
      · exact ⟨_, Heap.read_alloc_fresh _ _, rfl, rfl⟩

/-! ## Declarations -/

theorem client_modifyClient (st : Tracker) (c e : Addr) (u : Client → Client) :
    (st.modifyClient c u).client e = if e = c then (st.client e).map u else st.client e :=
  Heap.read_modify _ _ _ _

/-- The files of the two lists are the registered ones that the declaration names. -/
theorem mem_lists_iff {x : File} {seeds : List Addr} {keys leech : List CString}
    (hreg : Registry st₁) (hx : st₁.file f = some x)
    (hseeds : List.Forall₂ (fun k f => fileGetByKey st₁ k = some f) keys seeds)
    (hdom : ∀ k, fileGetByKey st₁ k ≠ none ↔ fileGetByKey st k ≠ none ∨ k ∈ keys) :
    f ∈ seeds ++ leech.filterMap (fileGetByKey st₁) ↔
      x.md5Str ∈ keys ∨ (x.md5Str ∈ leech ∧ fileGetByKey st x.md5Str ≠ none) := by
  have hself : fileGetByKey st₁ x.md5Str = some f := hreg.key_of_file hx
  have hkey : ∀ {k}, fileGetByKey st₁ k = some f → k = x.md5Str := by
    intro k hk
    obtain ⟨y, hy, hyk⟩ := hreg.file_of_key hk
    rw [hx] at hy
    rw [← hyk, ← Option.some.inj hy]
  rw [List.mem_append, List.mem_filterMap]
  constructor
  · rintro (hs | ⟨k, hk, hkf⟩)
    · obtain ⟨k, hk, hkf⟩ := exists_of_mem_left hseeds.flip hs
      exact .inl (hkey hkf ▸ hk)
    · obtain rfl := hkey hkf
      rcases (hdom x.md5Str).1 (by simp [hself]) with hold | hnew
      · exact .inr ⟨hk, hold⟩
      · exact .inl hnew
  · rintro (hs | ⟨hl, -⟩)
    · obtain ⟨g, hg, hgk⟩ := exists_of_mem_left hseeds hs
      obtain rfl : f = g := Option.some.inj (hself.symm.trans hgk)
      exact .inl hg
    · exact .inr ⟨_, hl, hself⟩

theorem seedLeech_spec {req : CString} {pm : List RegMatch} (hreg : Registry st)
    (ht : ∀ {f x}, st.file f = some x → x.clients.UniqueKeys) (hc : st.client c = some cl)
    (h : seedLeechMatchAndParse st c req pm = some st') :
    ∃ cl', Declares c (declarationOf none req (slot pm 1) (slot pm 2)) cl cl' st st' := by
  simp only [seedLeechMatchAndParse, Option.bind_eq_bind, Option.bind_eq_some_iff] at h
  obtain ⟨⟨st₁, seeds⟩, hseed, st₂, hadd₁, hadd₂⟩ := h
  obtain ⟨hreg₁, hg, hall, hdom⟩ := getSeedFileList_spec hreg hseed
  let leeches := getLeechFileList st₁ (substr req (slot pm 2).so (slot pm 2).eo)
  let cl' : Client := { cl with filesSeed := seeds, filesLeech := leeches }
  let st₁' := st₁.modifyClient c fun cl => { cl with filesSeed := seeds, filesLeech := leeches }
  have hcl₁ : st₁.client c = some cl := (hg.client c).trans hc
  have hcl' : st₁'.client c = some cl' := by
    rw [client_modifyClient, if_pos rfl, hcl₁]
    rfl
  have hen₁ : Enrolled c cl'.listenAddrKey seeds st₁' st₂ := foldlM_fileAddClient_spec hcl' hadd₁
  have hcl₂ : st₂.client c = some cl' := (hen₁.toRetabled.client c).trans hcl'
  have hen := hen₁.append (foldlM_fileAddClient_spec hcl₂ hadd₂)
  have ht₁ : ∀ {f x}, st₁'.file f = some x → x.clients.UniqueKeys := by
    intro f x hx
    rcases hg.new hx with hx | ⟨-, hempty⟩
    · exact ht hx
    · rw [hempty]
      exact List.nodup_nil
  have hreg₁' : Registry st₁' := hreg₁.congr (fun _ => rfl) rfl
  have hreg' : Registry st' := hen.toRetabled.registry hreg₁'
  have hnames : ∀ {f x}, st'.file f = some x → (f ∈ cl'.files ↔
      (declarationOf none req (slot pm 1) (slot pm 2)).Names st x.md5Str) := by
    intro f x hx
    obtain ⟨y, hy, heq⟩ := hen.toRetabled.of_file_some hx
    have hmd : x.md5Str = y.md5Str := by rw [heq]
    rw [hmd]
    exact mem_lists_iff hreg₁ hy hall hdom
  refine ⟨cl', ⟨hc, (hen.toRetabled.client c).trans hcl', ?_, ?_, rfl, hreg', hen.tables ht₁, ?_, ?_,
    hen.key, hnames, ?_, ?_⟩⟩
  · intro e he
    rw [hen.toRetabled.client, client_modifyClient, if_neg he, hg.client]
  · rw [hen.clientHeap]
    exact (Heap.fresh_modify _ _ _).trans (congrArg Heap.fresh hg.clientHeap)
  · intro f x hx
    have hx₁ : st₁'.file f = some x := hg.old hx
    obtain ⟨t, ht'⟩ := hen.toRetabled.file_some hx₁
    exact ⟨_, ht', rfl⟩
  · intro f hf
    have hget : ∃ k, fileGetByKey st₁ k = some f := by
      rcases List.mem_append.1 hf with hf | hf
      · obtain ⟨k, -, hk⟩ := exists_of_mem_left hall.flip hf
        exact ⟨k, hk⟩
      · obtain ⟨k, -, hk⟩ := List.mem_filterMap.1 hf
        exact ⟨k, hk⟩
    obtain ⟨k, hk⟩ := hget
    obtain ⟨y, hy, -⟩ := hreg₁.file_of_key hk
    have hy₁ : st₁'.file f = some y := hy
    obtain ⟨t, ht'⟩ := hen.toRetabled.file_some hy₁
    exact ⟨_, ht'⟩
  · intro k
    rw [hen.toRetabled.fileGetByKey]
    exact hdom k
  · intro f k e
    have hsame : ∀ {f k e}, st₁'.Holds f k e ↔ st.Holds f k e := hg.holds
    rw [hen.holds]
    simp only [Tracker.Occupied, hsame]
    rfl

theorem slot_shifted (pm : List RegMatch) (m : RegMatch) {i : Nat} (hi : i ≠ 0) :
    slot ((pm.set 1 m).drop 1) i = slot pm (i + 1) := by
  simp [slot, List.getD_eq_getElem?_getD, hi]

/-- An `announce` sets the endpoint first and then declares like an `update`. -/
theorem announce_spec {req : CString} {pm : List RegMatch} (hreg : Registry st)
    (ht : ∀ {f x}, st.file f = some x → x.clients.UniqueKeys) (hc : st.client c = some cl)
    (h : announceMatchAndParse st c req pm = some st') :
    ∃ cl', Declares c (declarationOf (some (toUInt16 (atoi (req.drop (slot pm 1).so)))) req
      (slot pm 2) (slot pm 3)) cl cl' st st' := by
  let port := toUInt16 (atoi (req.drop (slot pm 1).so))
  let st₀ := clientSetListeningPort st c port
  let cl₀ : Client :=
    { cl with listeningPort := port, listenAddrKey := some (listenKey cl.addr port) }
  have hc₀ : st₀.client c = some cl₀ := by
    have := client_modifyClient st c c fun cl =>
      { cl with listeningPort := port, listenAddrKey := some (listenKey cl.addr port) }
    rw [if_pos rfl, hc] at this
    exact this
  have hreg₀ : Registry st₀ := hreg.congr (fun _ => rfl) rfl
  have ht₀ : ∀ {f x}, st₀.file f = some x → x.clients.UniqueKeys := ht
  obtain ⟨cl', hd⟩ := seedLeech_spec hreg₀ ht₀ hc₀ h
  rw [slot_shifted _ _ (by decide), slot_shifted _ _ (by decide)] at hd
  refine ⟨cl', ⟨hc, hd.after, ?_, ?_, hd.endpoint, hd.registry, hd.tables, hd.file_old, hd.listed,
    hd.keyed, hd.names, hd.domain, hd.holds⟩⟩
  · intro e he
    have := client_modifyClient st c e fun cl =>
      { cl with listeningPort := port, listenAddrKey := some (listenKey cl.addr port) }
    rw [if_neg he] at this
    exact (hd.others he).trans this
  · exact hd.fresh.trans (Heap.fresh_modify _ _ _)

/-! ## Requests -/

theorem protLook_st {o : Outcome} {reqValue : CString} (h : protLook st c reqValue = some o) :
    o.st = st := by
  simp only [protLook, Option.bind_eq_bind, Option.bind_eq_some_iff] at h
  obtain ⟨sel, -, h⟩ := h
  cases sel with
  | none =>
      obtain rfl : ⟨st, -1, []⟩ = o := by simpa using h
      rfl
  | some l =>
      simp only [Option.bind_eq_some_iff] at h
      obtain ⟨s, -, h⟩ := h
      obtain rfl := Option.some.inj h
      rfl

theorem protGetfile_st {o : Outcome} {reqValue : CString} (h : protGetfile st c reqValue = some o) :
    o.st = st := by
  unfold protGetfile at h
  simp only at h
  split at h
  · obtain rfl := Option.some.inj h
    rfl
  · split at h
    · obtain rfl := Option.some.inj h
      rfl
    · simp only [Option.bind_eq_bind, Option.bind_eq_some_iff] at h
      obtain ⟨x, -, s, -, h⟩ := h
      obtain rfl := Option.some.inj h
      rfl

/-- A request either declares nothing and changes nothing, or is an accepted declaration. -/
theorem handleRequest_cases {req : CString} {out : List CString} (hreg : Registry st)
    (ht : ∀ {f x}, st.file f = some x → x.clients.UniqueKeys) (hc : st.client c = some cl)
    (h : handleRequest st c req = some (st', out)) :
    (declaration req = none ∧ st' = st) ∨
      ∃ d cl', declaration req = some d ∧ Declares c d cl cl' st st' := by
  unfold handleRequest at h
  unfold declaration
  cases hscan : sscanfWord req with
  | none =>
      obtain ⟨rfl, -⟩ : st = st' ∧ [errorReply] = out := by simpa [hscan] using h
      exact .inl ⟨rfl, rfl⟩
  | some p =>
      obtain ⟨reqName, reqValue⟩ := p
      simp only [hscan, getAndCallHandler] at h ⊢
      cases hhand : getRequestHandler reqName with
      | none =>
          obtain ⟨rfl, -⟩ : st = st' ∧ [errorReply] = out := by simpa [hhand] using h
          exact .inl ⟨rfl, rfl⟩
      | some handler =>
          simp only [hhand, Option.bind_eq_bind, Option.bind_eq_some_iff] at h
          obtain ⟨o, hcall, hpure⟩ := h
          obtain ⟨rfl, -⟩ : o.st = st' ∧ _ = out := by simpa using hpure
          cases handler with
          | announce =>
              simp only [Handler.call, protAnnounce] at hcall ⊢
              cases hre : regexec announceRegexp reqValue with
              | none =>
                  obtain rfl : ⟨st, -1, []⟩ = o := by simpa [hre] using hcall
                  exact .inl ⟨rfl, rfl⟩
              | some pm =>
                  simp only [hre, Option.bind_eq_bind, Option.bind_eq_some_iff] at hcall
                  obtain ⟨st₁, hann, ho⟩ := hcall
                  obtain rfl := Option.some.inj ho
                  obtain ⟨cl', hd⟩ := announce_spec hreg ht hc hann
                  exact .inr ⟨_, cl', rfl, hd⟩
          | update =>
              simp only [Handler.call, protUpdate] at hcall ⊢
              cases hre : regexec updateRegexp reqValue with
              | none =>
                  obtain rfl : ⟨st, -1, []⟩ = o := by simpa [hre] using hcall
                  exact .inl ⟨rfl, rfl⟩
              | some pm =>
                  simp only [hre, Option.bind_eq_bind, Option.bind_eq_some_iff] at hcall
                  obtain ⟨st₁, hupd, ho⟩ := hcall
                  obtain rfl := Option.some.inj ho
                  obtain ⟨cl', hd⟩ := seedLeech_spec hreg ht hc hupd
                  exact .inr ⟨_, cl', rfl, hd⟩
          | look => exact .inl ⟨rfl, protLook_st (c := c) hcall⟩
          | getfile => exact .inl ⟨rfl, protGetfile_st hcall⟩

/-! ## Disconnections -/

theorem deleteClient_spec (hreg : Registry st)
    (ht : ∀ {f x}, st.file f = some x → x.clients.UniqueKeys)
    (h : deleteClient st c = some st') : ∃ cl, Leaves c cl st st' := by
  simp only [deleteClient, clientFree, removeClientFromFileList, Option.bind_eq_bind,
    Option.bind_eq_some_iff] at h
  obtain ⟨cl, hc, cl₀, hc₀, st₁, h₁, st₂, h₂, hpure⟩ := h
  let st₀ : Tracker := { st with clients := htRemoveEntry st.clients cl.connAddrKey }
  obtain rfl : cl = cl₀ := Option.some.inj (hc.symm.trans hc₀)
  have hs₁ : Struck cl.listenAddrKey cl.filesSeed st₀ st₁ := foldlM_fileRemoveClient_spec hc ht h₁
  have hc₁ : st₁.client c = some cl := (hs₁.toRetabled.client c).trans hc
  have hs₂ := foldlM_fileRemoveClient_spec hc₁ hs₁.tables h₂
  have hret : Retabled st₀ st₂ := hs₁.toRetabled.trans hs₂.toRetabled
  have hreg₀ : Registry st₀ := hreg.congr (fun _ => rfl) rfl
  obtain rfl := Option.some.inj hpure
  refine ⟨cl, hc, Heap.read_free_self _ _, ?_, ?_,
    (hret.registry hreg₀).congr (fun _ => rfl) rfl, hs₂.tables, ?_, ?_⟩
  · intro e he
    have hfree := Heap.read_free st₂.clientHeap c e
    rw [if_neg he] at hfree
    exact hfree.trans (hret.client e)
  · exact (Heap.fresh_free _ _).trans (congrArg Heap.fresh hret.clientHeap)
  · intro f x hx
    obtain ⟨t, ht'⟩ := hret.file_some (show st₀.file f = some x from hx)
    exact ⟨_, ht', rfl⟩
  · intro f k e
    have hsame : st₂.Holds f k e ↔ st.Holds f k e ∧
        ¬ (f ∈ cl.filesSeed ∧ cl.listenAddrKey = some k) ∧
        ¬ (f ∈ cl.filesLeech ∧ cl.listenAddrKey = some k) := by
      rw [hs₂.holds, hs₁.holds, and_assoc]
      rfl
    refine hsame.trans ?_
    simp only [Client.files, List.mem_append]
    tauto

end CTracker
end Raiezau
