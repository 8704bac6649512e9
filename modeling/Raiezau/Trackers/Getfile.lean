import Mathlib.Data.Set.Insert
import Raiezau.CTracker.ListenPort
import Raiezau.CTracker.Membership
import Raiezau.CppTracker.Failure
import Raiezau.JavaClient.PatternMatcher

/-!
# Getfile — the two trackers asked for the same file

A `Registry` is what both trackers keep: who has announced and who has which file.  The C tracker answers from it for
every key; the C++ tracker does for the keys it has, and for another one it takes the hash of a null pointer.
-/

namespace Raiezau
namespace Trackers

open CUtil Memory Text
open CTracker (SockAddr sockaddrStringify)
open JavaClient (IsKey)

/-! ## The registry -/

/-- The endpoints that are announced, and for each registered key those of its file. -/
structure Registry where
  announced : Set SockAddr
  peers : CString → Option (Set SockAddr)
  peers_subset : ∀ {key s}, peers key = some s → s ⊆ announced

/-- What a peer is to be told of a key: the endpoints of the others, as they are written. -/
def Registry.others (R : Registry) (key : CString) (e : SockAddr) : Set CString :=
  {w | ∃ s ∈ R.peers key, ∃ d ∈ s, d ≠ e ∧ w = sockaddrStringify d}

/-- A line that names the key and lists endpoints between blanks. -/
def ListsPeers (key : CString) (endpoints : Set CString) (reply : CString) : Prop :=
  ∃ body, reply = "peers ".toList ++ key ++ " [".toList ++ body ++ "]\n".toList ∧ '\n' ∉ body ∧
    ∀ w, w ∈ words (fun c => c = ' ') body ↔ w ∈ endpoints

/-- The C tracker keeps the registry, with the client of each endpoint at an address of its own. -/
structure KeptByC (R : Registry) (clientAt : SockAddr → Addr) (st : CTracker.Tracker) : Prop where
  injective : Set.InjOn clientAt R.announced
  client : ∀ e ∈ R.announced, ∃ cl, st.client (clientAt e) = some cl ∧ cl.listenAddrKey = some (sockaddrStringify e)
  unknown : ∀ {key}, R.peers key = none → CTracker.fileGetByKey st key = none
  file : ∀ {key s}, R.peers key = some s → ∃ f x, CTracker.fileGetByKey st key = some f ∧ st.file f = some x ∧
    ∀ a, a ∈ x.clients.map Prod.snd ↔ ∃ e ∈ s, clientAt e = a

/-- The C++ tracker keeps it. -/
structure KeptByCpp (R : Registry) (peerAt : SockAddr → Addr) (st : CppTracker.Tracker) : Prop where
  injective : Set.InjOn peerAt R.announced
  peer : ∀ e ∈ R.announced, ∃ q, st.peer (peerAt e) = some q ∧ q.announced = true ∧ q.remoteIP = e.sinAddr ∧
    q.listeningPort = e.sinPort.toNat
  unknown : ∀ {key}, R.peers key = none → st.fileMap.get key = none
  file : ∀ {key s}, R.peers key = some s → ∃ f x, st.fileMap.get key = some f ∧ st.file f = some x ∧ x.hash = key ∧
    ∀ a, a ∈ x.peers ↔ ∃ e ∈ s, peerAt e = a

def getfileRequest (key : CString) : CString := "getfile ".toList ++ key

/-- The client is answered by the C tracker with one line, which lists the others. -/
def AnsweredByC (R : Registry) (st : CTracker.Tracker) (c : Addr) (e : SockAddr) (key : CString) : Prop :=
  ∃ reply, CTracker.handleRequest st c (getfileRequest key) = some (st, [reply]) ∧
    ListsPeers key (R.others key e) reply

/-- The peer is answered by the C++ tracker so. -/
def AnsweredByCpp (R : Registry) (st : CppTracker.Tracker) (p : Addr) (e : SockAddr) (key : CString) : Prop :=
  ∃ st' reply, CppTracker.handleLine st p (getfileRequest key) = some (st', some reply) ∧
    ListsPeers key (R.others key e) reply

variable {R : Registry} {e d : SockAddr} {key w : CString} {ws : List CString} {endpoints : Set CString}

/-! ## Texts -/

theorem mem_sockaddrStringify {ch : Char} (h : ch ∈ sockaddrStringify e) : ch.isDigit = true ∨ ch = '.' ∨ ch = ':' := by
  rcases List.mem_append.1 h with hip | hport
  · exact (CTracker.dotted_ipStringify e.sinAddr ch hip).imp_right .inl
  rcases List.mem_cons.1 hport with hcolon | hdigits
  · exact .inr (.inr hcolon)
  · exact .inl (isDigit_of_mem_decimal hdigits)

theorem sockaddrStringify_isWord (e : SockAddr) :
    sockaddrStringify e ≠ [] ∧ ∀ ch ∈ sockaddrStringify e, decide (ch = ' ') = false := by
  refine ⟨List.append_ne_nil_of_right_ne_nil _ (List.cons_ne_nil _ _), fun ch hch => decide_eq_false ?_⟩
  rintro rfl
  have hfree := mem_sockaddrStringify hch
  revert hfree
  decide

theorem not_mem_sockaddrStringify (e : SockAddr) : '\n' ∉ sockaddrStringify e := by
  intro hch
  have hfree := mem_sockaddrStringify hch
  revert hfree
  decide

/-- A blank before each endpoint. -/
theorem listsPeers_flatMap (hws : ∀ w, w ∈ ws ↔ w ∈ endpoints) (htexts : ∀ w ∈ ws, ∃ e, w = sockaddrStringify e) :
    ListsPeers key endpoints
      ("peers ".toList ++ key ++ " [".toList ++ (ws.flatMap fun w => ' ' :: w) ++ "]\n".toList) := by
  refine ⟨_, rfl, fun hn => ?_, fun w => ?_⟩
  · obtain ⟨w, hw, hn⟩ := List.mem_flatMap.1 hn
    obtain ⟨e, rfl⟩ := htexts w hw
    rcases List.mem_cons.1 hn with hblank | hn
    · revert hblank
      decide
    · exact not_mem_sockaddrStringify e hn
  · rw [words_flatMap_cons (by decide) fun w hw => ?_]
    · exact hws w
    · obtain ⟨e, rfl⟩ := htexts w hw
      exact sockaddrStringify_isWord e

/-- Blanks between them. -/
theorem listsPeers_intercalate (hws : ∀ w, w ∈ ws ↔ w ∈ endpoints) (htexts : ∀ w ∈ ws, ∃ e, w = sockaddrStringify e) :
    ListsPeers key endpoints
      ("peers ".toList ++ key ++ " [".toList ++ [' '].intercalate ws ++ "]\n".toList) := by
  refine ⟨_, rfl, fun hn => ?_, fun w => ?_⟩
  · rcases mem_intercalate hn with hblank | ⟨w, hw, hn⟩
    · revert hblank
      decide
    · obtain ⟨e, rfl⟩ := htexts w hw
      exact not_mem_sockaddrStringify e hn
  · rw [words_intercalate (by decide) fun w hw => ?_]
    · exact hws w
    · obtain ⟨e, rfl⟩ := htexts w hw
      exact sockaddrStringify_isWord e

theorem getfileRequest_eq (key : CString) : getfileRequest key = "getfile".toList ++ ' ' :: key := by
  have hgap : "getfile ".toList = "getfile".toList ++ [' '] := by decide
  unfold getfileRequest
  rw [hgap]
  exact List.append_assoc _ [' '] key

/-! ## Addresses -/

/-- The addresses of the others are the other addresses. -/
theorem mem_other_iff {addrOf : SockAddr → Addr} (hinj : Set.InjOn addrOf R.announced) (he : e ∈ R.announced)
    {s : Set SockAddr} (hs : R.peers key = some s) (a : Addr) :
    (∃ d ∈ s, addrOf d = a) ∧ a ≠ addrOf e ↔ ∃ d ∈ s, d ≠ e ∧ addrOf d = a := by
  constructor
  · rintro ⟨⟨d, hd, rfl⟩, hne⟩
    exact ⟨d, hd, fun heq => hne (heq ▸ rfl), rfl⟩
  · rintro ⟨d, hd, hne, rfl⟩
    exact ⟨⟨d, hd, rfl⟩, fun heq => hne (hinj (R.peers_subset hs hd) he heq)⟩

theorem mem_others_iff {s : Set SockAddr} (hs : R.peers key = some s) :
    w ∈ R.others key e ↔ ∃ d ∈ s, d ≠ e ∧ w = sockaddrStringify d := by
  simp [Registry.others, hs]

theorem not_mem_others (hnone : R.peers key = none) : w ∉ R.others key e := by
  simp [Registry.others, hnone]

theorem exists_of_mem_others (h : w ∈ R.others key e) : ∃ d, w = sockaddrStringify d := by
  obtain ⟨-, -, d, -, -, rfl⟩ := h
  exact ⟨d, rfl⟩

/-! ## The C tracker -/

section C

variable {clientAt : SockAddr → Addr} {st : CTracker.Tracker}

/-- The clients that are listed are the others. -/
theorem mem_listedClients (hC : KeptByC R clientAt st) (he : e ∈ R.announced) {s : Set SockAddr}
    (hs : R.peers key = some s) (a : Addr) :
    a ∈ CTracker.listedClients st (clientAt e) key ↔ ∃ d ∈ s, d ≠ e ∧ clientAt d = a := by
  obtain ⟨f, x, hf, hx, hmem⟩ := hC.file hs
  rw [← mem_other_iff hC.injective he hs, ← hmem, CTracker.listedClients, hf, Option.bind_some, hx]
  simp [List.mem_filter]

theorem mem_listed (hC : KeptByC R clientAt st) (he : e ∈ R.announced) {peers : List (Addr × CString)}
    (hfst : peers.map Prod.fst = CTracker.listedClients st (clientAt e) key)
    (hsnd : ∀ p ∈ peers, ∃ cl, st.client p.1 = some cl ∧ cl.listenAddrKey = some p.2) (w : CString) :
    w ∈ peers.map Prod.snd ↔ w ∈ R.others key e := by
  cases hs : R.peers key with
  | none =>
      rw [CTracker.listedClients, hC.unknown hs] at hfst
      obtain rfl := List.map_eq_nil_iff.1 hfst
      exact iff_of_false List.not_mem_nil (not_mem_others hs)
  | some s =>
      -- A client is at the address of one endpoint only, and has the text of that one.
      have htext : ∀ p ∈ peers, ∀ d ∈ s, clientAt d = p.1 → p.2 = sockaddrStringify d := by
        intro p hp d hd haddr
        obtain ⟨cl, hcl, hkey⟩ := hsnd p hp
        obtain ⟨cl', hcl', hkey'⟩ := hC.client d (R.peers_subset hs hd)
        obtain rfl := Option.some.inj (hcl'.symm.trans (haddr ▸ hcl))
        exact Option.some.inj (hkey.symm.trans hkey')
      rw [mem_others_iff hs]
      constructor
      · intro hw
        obtain ⟨p, hp, rfl⟩ := List.mem_map.1 hw
        obtain ⟨d, hd, hne, haddr⟩ := (mem_listedClients hC he hs p.1).1 (hfst ▸ List.mem_map_of_mem hp)
        exact ⟨d, hd, hne, htext p hp d hd haddr⟩
      · rintro ⟨d, hd, hne, rfl⟩
        have hlisted := (mem_listedClients hC he hs (clientAt d)).2 ⟨d, hd, hne, rfl⟩
        obtain ⟨p, hp, haddr⟩ := List.mem_map.1 (hfst.symm ▸ hlisted)
        exact List.mem_map.2 ⟨p, hp, htext p hp d hd haddr.symm⟩

theorem answeredByC (hC : KeptByC R clientAt st) (he : e ∈ R.announced) (hkey : IsKey key) :
    AnsweredByC R st (clientAt e) e key := by
  have hspace : ∀ ch ∈ key, isspace ch = false := fun ch hch => JavaClient.isBlank_of_isHexDigit (hkey.2 ch hch)
  -- A key is hexadecimal: nothing is trimmed, and its length is the right one.
  have htrim : CTracker.strTrimProtGetfile key = key := by
    refine List.takeWhile_eq_self_iff.2 fun ch hch => decide_eq_true ?_
    rintro rfl
    exact Bool.noConfusion (hspace _ hch)
  obtain ⟨o, ho, hret⟩ : ∃ o, CTracker.protGetfile st (clientAt e) key = some o ∧ o.ret = 0 := by
    have hlen : ¬ key.length ≠ CTracker.keyhashStrsize := not_not.2 hkey.1
    unfold CTracker.protGetfile
    rw [htrim]
    dsimp only
    rw [if_neg hlen]
    -- An unknown key is answered with an empty list.
    cases hs : R.peers key with
    | none =>
        rw [hC.unknown hs]
        exact ⟨_, rfl, rfl⟩
    | some s =>
        obtain ⟨f, x, hf, hx, hmem⟩ := hC.file hs
        obtain ⟨text, htext⟩ : ∃ text, CTracker.protGetfileBuildPeerStringList st (clientAt e) x.clients = some text := by
          refine CTracker.buildPeerStringList_isSome fun k a ha => ?_
          obtain ⟨d, hd, rfl⟩ := (hmem a).1 (List.mem_map_of_mem ha)
          obtain ⟨cl, hcl, hlisten⟩ := hC.client d (R.peers_subset hs hd)
          exact ⟨cl, _, hcl, hlisten⟩
        rw [hf]
        dsimp only
        rw [hx, Option.bind_eq_bind, Option.bind_eq_bind, Option.bind_some, htext]
        exact ⟨_, rfl, rfl⟩
  obtain ⟨peers, hout, hfst, hsnd⟩ := CTracker.protGetfile_peers ho hret
  rw [htrim] at hout hfst
  have hmem := mem_listed hC he hfst hsnd
  have hcall : CTracker.handleRequest st (clientAt e) (getfileRequest key) =
      (CTracker.protGetfile st (clientAt e) key).map fun o =>
        (o.st, if o.ret < 0 then o.out ++ [CTracker.errorReply] else o.out) :=
    CTracker.handleRequest_getfile_word fun ch hch => hspace ch (List.mem_of_mem_head? hch)
  rw [ho, Option.map_some, CTracker.protGetfile_st ho, hret, if_neg (Int.lt_irrefl 0), hout] at hcall
  refine ⟨CTracker.peersReply key peers, hcall, ?_⟩
  have hlists : ListsPeers key (R.others key e) _ :=
    listsPeers_flatMap hmem fun w hw => exists_of_mem_others ((hmem w).1 hw)
  rwa [List.flatMap_map] at hlists

end C

/-! ## The C++ tracker -/

section Cpp

variable {peerAt : SockAddr → Addr} {st : CppTracker.Tracker}

theorem peerEndpoints_eq (hP : KeptByCpp R peerAt st) (he : e ∈ R.announced) {s : Set SockAddr}
    (hs : R.peers key = some s) {peers : CppTracker.PtrSet} (hmem : ∀ a, a ∈ peers ↔ ∃ e ∈ s, peerAt e = a) :
    ∃ ws, CppTracker.peerEndpoints st (peerAt e) peers = some ws ∧ ∀ w, w ∈ ws ↔ w ∈ R.others key e := by
  have hothers : ∀ a, a ∈ peers.filter (fun a => a ≠ peerAt e) ↔ ∃ d ∈ s, d ≠ e ∧ peerAt d = a := by
    intro a
    rw [← mem_other_iff hP.injective he hs, ← hmem]
    simp [List.mem_filter]
  have htext : ∀ d ∈ s, (st.peer (peerAt d)).map CppTracker.Peer.toString = some (sockaddrStringify d) := by
    intro d hd
    obtain ⟨q, hq, -, hip, hport⟩ := hP.peer d (R.peers_subset hs hd)
    rw [hq, Option.map_some, CppTracker.Peer.toString, hip, hport]
    rfl
  have htotal : ∀ a ∈ peers.filter (fun a => a ≠ peerAt e), ∃ w, (st.peer a).map CppTracker.Peer.toString = some w := by
    intro a ha
    obtain ⟨d, hd, -, rfl⟩ := (hothers a).1 ha
    exact ⟨_, htext d hd⟩
  -- Every peer of the file is there, so the loop reaches its end.
  obtain ⟨ws, hws, hwords⟩ := Machine.mapM_total htotal
  refine ⟨ws, hws, fun w => ?_⟩
  rw [hwords, mem_others_iff hs]
  constructor
  · rintro ⟨a, ha, hw⟩
    obtain ⟨d, hd, hne, rfl⟩ := (hothers a).1 ha
    exact ⟨d, hd, hne, Option.some.inj (hw.symm.trans (htext d hd))⟩
  · rintro ⟨d, hd, hne, rfl⟩
    exact ⟨peerAt d, (hothers _).2 ⟨d, hd, hne, rfl⟩, htext d hd⟩

/-- The request goes to `handleGetfile`, which reads the key from it. -/
theorem handleLine_getfile (key : CString) (st : CppTracker.Tracker) (p : Addr) :
    CppTracker.handleLine st p (getfileRequest key) =
      match CppTracker.handleGetfile st p ⟨' ' :: key, true⟩ with
      | none => none
      | some (st, .error what) => some (CppTracker.countError st p, some (CppTracker.errorNotice what))
      | some (st, .ok reply) => some (CppTracker.clearErrors st p, some reply) := by
  have hword : (CppTracker.IStream.ofString (getfileRequest key)).readWord [] = (⟨' ' :: key, true⟩, "getfile".toList) := by
    have hgetfile : CppTracker.IsWord "getfile".toList := by decide
    have hends : CppTracker.Ends (' ' :: key) := by
      intro ch hch
      obtain rfl := Option.some.inj hch
      rfl
    have hblank : CppTracker.Blank [] := nofun
    have hread := CppTracker.IStream.readWord_word hblank hgetfile hends []
    rw [CppTracker.IStream.ofString, getfileRequest_eq]
    exact hread
  have hdispatch : CppTracker.dispatch (getfileRequest key) = some (.getfile, ⟨' ' :: key, true⟩) := by
    rw [CppTracker.dispatch, hword]
    rfl
  have hne : ((CppTracker.IStream.ofString (getfileRequest key)).readWord []).2 ≠ [] := by
    rw [hword]
    exact List.cons_ne_nil _ _
  unfold CppTracker.handleLine
  dsimp only
  rw [if_neg hne, hdispatch]
  rfl

theorem handleGetfile_eq (hkey : IsKey key) {p : Addr} {q : CppTracker.Peer} (hq : st.peer p = some q)
    (hann : q.announced = true) : CppTracker.handleGetfile st p ⟨' ' :: key, true⟩ =
      ((st.fileMap.get key).bind st.file).bind fun x =>
        (CppTracker.peerListString st p x).map fun reply => (st, .ok reply) := by
  have hspace : CppTracker.IsWord key := by
    refine ⟨fun hnil => ?_, fun ch hch => JavaClient.isBlank_of_isHexDigit (hkey.2 ch hch)⟩
    have hlen := hkey.1
    rw [hnil] at hlen
    cases hlen
  have hblank : CppTracker.Blank [' '] := by decide
  have hends : CppTracker.Ends [] := nofun
  have hread := CppTracker.IStream.readWord_word hblank hspace hends []
  rw [List.append_nil] at hread
  have hword : ((CppTracker.IStream.mk (' ' :: key) true).readWord []).2 = key := congrArg Prod.snd hread
  rw [CppTracker.handleGetfile, hq, Option.bind_eq_bind, Option.bind_some, hann, Bool.not_true, if_neg (by decide)]
  dsimp only
  rw [hword]
  cases st.fileMap.get key with
  | none => rfl
  | some f =>
      simp only [Option.bind_eq_bind, Option.bind_some]
      cases st.file f with
      | none => rfl
      | some x => exact Option.map_eq_bind.symm

/-- The C++ tracker answers for the keys it has. -/
theorem answeredByCpp_iff (hP : KeptByCpp R peerAt st) (he : e ∈ R.announced) (hkey : IsKey key) :
    AnsweredByCpp R st (peerAt e) e key ↔ (R.peers key).isSome := by
  obtain ⟨q, hq, hann, -⟩ := hP.peer e he
  unfold AnsweredByCpp
  rw [handleLine_getfile, handleGetfile_eq hkey hq hann]
  cases hs : R.peers key with
  | none =>
      -- The map gives a null pointer for the file.
      rw [hP.unknown hs]
      refine iff_of_false ?_ Bool.false_ne_true
      rintro ⟨st', reply, hnone, -⟩
      cases hnone
  | some s =>
      obtain ⟨f, x, hf, hx, hhash, hmem⟩ := hP.file hs
      obtain ⟨ws, hws, hothers⟩ := peerEndpoints_eq hP he hs hmem
      refine iff_of_true ⟨CppTracker.clearErrors st (peerAt e),
        "peers ".toList ++ key ++ " [".toList ++ [' '].intercalate ws ++ "]\n".toList, ?_, ?_⟩ rfl
      · rw [hf, Option.bind_some, hx, Option.bind_some, CppTracker.peerListString, hws, hhash]
        rfl
      · exact listsPeers_intercalate hothers fun w hw => exists_of_mem_others ((hothers w).1 hw)

end Cpp

/-- The trackers that keep a registry agree on a key exactly if it is registered. -/
theorem getfile_agree_iff {clientAt peerAt : SockAddr → Addr} {st : CTracker.Tracker} {st' : CppTracker.Tracker}
    (hC : KeptByC R clientAt st) (hP : KeptByCpp R peerAt st') (he : e ∈ R.announced) (hkey : IsKey key) :
    (AnsweredByC R st (clientAt e) e key ∧ AnsweredByCpp R st' (peerAt e) e key) ↔ (R.peers key).isSome :=
  (and_iff_right (answeredByC hC he hkey)).trans (answeredByCpp_iff hP he hkey)

/-! ## Two peers with one file -/

/-- The endpoint that a peer on this host listens on. -/
def localEndpoint (port : UInt16) : SockAddr := ⟨CTracker.loopback, port⟩

def filmRegistry : Registry where
  announced := {localEndpoint 6881, localEndpoint 6882}
  peers key := if key = CTracker.filmKey then some {localEndpoint 6881, localEndpoint 6882} else none
  peers_subset := by
    intro key s hs
    split at hs
    · obtain rfl := Option.some.inj hs
      exact subset_rfl
    · cases hs

def filmAddr (e : SockAddr) : Addr := if e = localEndpoint 6881 then 0 else 1

theorem filmAddr_injOn : Set.InjOn filmAddr filmRegistry.announced := by
  rintro e (rfl | rfl) d (rfl | rfl) h
  · rfl
  · revert h
    decide
  · revert h
    decide
  · rfl

/-- The files of the two trackers once both peers have announced the film. -/
theorem mem_film_peers (a : Addr) : a ∈ [0, 1] ↔
    ∃ e ∈ ({localEndpoint 6881, localEndpoint 6882} : Set SockAddr), filmAddr e = a := by
  have h₀ : filmAddr (localEndpoint 6881) = 0 := by decide
  have h₁ : filmAddr (localEndpoint 6882) = 1 := by decide
  simp [h₀, h₁, eq_comm]

theorem filmRegistry_peers {key : CString} {s : Set SockAddr} (h : filmRegistry.peers key = some s) :
    key = CTracker.filmKey ∧ s = {localEndpoint 6881, localEndpoint 6882} := by
  have hif : (if key = CTracker.filmKey then some {localEndpoint 6881, localEndpoint 6882} else none) = some s := h
  split at hif
  · next hkey => exact ⟨hkey, (Option.some.inj hif).symm⟩
  · cases hif

theorem filmRegistry_unknown {key : CString} (h : filmRegistry.peers key = none) : key ≠ CTracker.filmKey := by
  rintro rfl
  simp [filmRegistry] at h

theorem lookup_film {key : CString} (hne : key ≠ CTracker.filmKey) :
    Assoc.Table.lookup [(CTracker.filmKey, (0 : Addr))] key = none := by
  rw [Assoc.Table.lookup_cons, if_neg (Ne.symm hne)]
  rfl

theorem exists_film_c : ∃ h st, CTracker.TrackerRun h st ∧ KeptByC filmRegistry filmAddr st := by
  obtain ⟨h, st, hrun, hhash, hfile, hclients⟩ := CTracker.exists_run_of_replay
    [.connect 5 ⟨CTracker.loopback, 4000⟩, .connect 6 ⟨CTracker.loopback, 4001⟩,
      .request 0 (CTracker.announceFilm "6881".toList), .request 1 (CTracker.announceFilm "6882".toList)]
    (P := fun _ st => st.fileByHash = [(CTracker.filmKey, 0)] ∧
      (st.file 0).map (fun x => x.clients.map Prod.snd) = some [0, 1] ∧
      ∀ e ∈ [localEndpoint 6881, localEndpoint 6882],
        (st.client (filmAddr e)).map CTracker.Client.listenAddrKey = some (some (sockaddrStringify e)))
    (by decide +kernel)
  refine ⟨h, st, hrun, filmAddr_injOn, fun e he => ?_, fun {key} hnone => ?_, fun {key s} hs => ?_⟩
  · have hmem : e ∈ [localEndpoint 6881, localEndpoint 6882] := by simpa [filmRegistry] using he
    obtain ⟨cl, hcl, hkey⟩ := Option.map_eq_some_iff.1 (hclients e hmem)
    exact ⟨cl, hcl, hkey⟩
  · rw [CTracker.fileGetByKey, hhash]
    exact lookup_film (filmRegistry_unknown hnone)
  · obtain ⟨rfl, rfl⟩ := filmRegistry_peers hs
    obtain ⟨x, hx, hpeers⟩ := Option.map_eq_some_iff.1 hfile
    refine ⟨0, x, ?_, hx, fun a => ?_⟩
    · rw [CTracker.fileGetByKey, hhash]
      rfl
    · rw [hpeers]
      exact mem_film_peers a

/-- The C++ tracker after the same requests. -/
theorem exists_film_cpp : ∃ h st, CppTracker.TrackerRun h st ∧ KeptByCpp filmRegistry filmAddr st := by
  obtain ⟨h, st, hrun, hmap, hfile, hpeers⟩ := CppTracker.exists_run_of_replay
    [.connect CTracker.loopback, .connect CTracker.loopback,
      .request 0 (CTracker.announceFilm "6881".toList), .request 1 (CTracker.announceFilm "6882".toList)]
    (P := fun _ st => st.fileMap = [(CTracker.filmKey, 0)] ∧
      (∃ x ∈ st.file 0, x.hash = CTracker.filmKey ∧ x.peers = [0, 1]) ∧
      ∀ e ∈ [localEndpoint 6881, localEndpoint 6882], ∃ q ∈ st.peer (filmAddr e),
        q.announced = true ∧ q.remoteIP = e.sinAddr ∧ q.listeningPort = e.sinPort.toNat)
    (by decide +kernel)
  refine ⟨h, st, hrun, filmAddr_injOn, fun e he => hpeers e (by simpa [filmRegistry] using he), fun {key} hnone => ?_,
    fun {key s} hs => ?_⟩
  · rw [hmap]
    exact lookup_film (filmRegistry_unknown hnone)
  · obtain ⟨rfl, rfl⟩ := filmRegistry_peers hs
    obtain ⟨x, hx, hhash, hset⟩ := hfile
    refine ⟨0, x, ?_, hx, hhash, fun a => ?_⟩
    · rw [hmap]
      rfl
    · rw [hset]
      exact mem_film_peers a

theorem getfile_agree_film : ∃ h st h' st', CTracker.TrackerRun h st ∧ CppTracker.TrackerRun h' st' ∧
    KeptByC filmRegistry filmAddr st ∧ KeptByCpp filmRegistry filmAddr st' ∧
    AnsweredByC filmRegistry st 0 (localEndpoint 6881) CTracker.filmKey ∧
    AnsweredByCpp filmRegistry st' 0 (localEndpoint 6881) CTracker.filmKey := by
  obtain ⟨h, st, hrun, hC⟩ := exists_film_c
  obtain ⟨h', st', hrun', hP⟩ := exists_film_cpp
  have he : localEndpoint 6881 ∈ filmRegistry.announced := Set.mem_insert _ _
  have hkey : IsKey CTracker.filmKey := ⟨by decide, by decide⟩
  exact ⟨h, st, h', st', hrun, hrun', hC, hP, (getfile_agree_iff hC hP he hkey).2 (by simp [filmRegistry])⟩

/-- A key that nobody has announced. -/
def otherKey : CString := List.replicate 32 'f'

theorem getfile_faults : ∃ h st h' st', CTracker.TrackerRun h st ∧ CppTracker.TrackerRun h' st' ∧
    KeptByC filmRegistry filmAddr st ∧ KeptByCpp filmRegistry filmAddr st' ∧
    localEndpoint 6881 ∈ filmRegistry.announced ∧ IsKey otherKey ∧
    CppTracker.handleLine st' 0 (getfileRequest otherKey) = none ∧
    ¬ (AnsweredByC filmRegistry st 0 (localEndpoint 6881) otherKey ∧
      AnsweredByCpp filmRegistry st' 0 (localEndpoint 6881) otherKey) := by
  obtain ⟨h, st, hrun, hC⟩ := exists_film_c
  obtain ⟨h', st', hrun', hP⟩ := exists_film_cpp
  have he : localEndpoint 6881 ∈ filmRegistry.announced := Set.mem_insert _ _
  have hkey : IsKey otherKey := ⟨by decide, by decide⟩
  -- The null pointer is dereferenced, and nothing is sent.
  have hfault : CppTracker.handleLine st' 0 (getfileRequest otherKey) = none := by
    obtain ⟨q, hq, hann, -⟩ := hP.peer _ he
    have hne : otherKey ≠ CTracker.filmKey := by decide
    have hunknown : filmRegistry.peers otherKey = none := by simp [filmRegistry, hne]
    have hq : st'.peer 0 = some q := hq
    rw [handleLine_getfile, handleGetfile_eq hkey hq hann, hP.unknown hunknown]
    rfl
  refine ⟨h, st, h', st', hrun, hrun', hC, hP, he, hkey, hfault, ?_⟩
  rintro ⟨-, st'', reply, hline, -⟩
  rw [hfault] at hline
  cases hline

end Trackers
end Raiezau
