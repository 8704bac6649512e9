import Raiezau.CTracker.Refusal

/-!
# Endpoint — who uses the endpoint key of a client

An `announce` sets the key.  `file_add_client`, `file_remove_client` and the reply to `getfile` use it, and none
of them looks whether it is there: the flag of a connection that says so is never read.  `Event.uses` lists the
uses of one step, with the key that each finds.
-/

namespace Raiezau
namespace CTracker

open Memory CUtil Text Machine Assoc

variable {st st' st₁ : Tracker} {h : TrackerHistory} {c e f : Addr} {cl : Client} {ev : Event} {req v : CString}

/-! ## The uses -/

/-- A use of the endpoint key of a client, with what it finds. -/
structure KeyUse where
  client : Addr
  key : Option CString
  deriving DecidableEq, Repr

/-- The client is handed to `file_add_client`, to `file_remove_client`, or to the reply. -/
def use (st : Tracker) (c : Addr) : List KeyUse :=
  ((st.client c).map fun cl => ⟨c, cl.listenAddrKey⟩).toList

def usesFor (st : Tracker) (c : Addr) (files : List Addr) : List KeyUse := files.flatMap fun _ => use st c

/-- The files are listed once the seed clause has been gone through. -/
def seedLeechUses (st : Tracker) (c : Addr) (req : CString) (pmatch : List RegMatch) : List KeyUse :=
  match getSeedFileList st (substr req (slot pmatch 1).so (slot pmatch 1).eo) with
  | none => []
  | some (st, seeds) =>
      usesFor st c (seeds ++ getLeechFileList st (substr req (slot pmatch 2).so (slot pmatch 2).eo))

def announceUses (st : Tracker) (c : Addr) (req : CString) (pmatch : List RegMatch) : List KeyUse :=
  let port := toUInt16 (atoi (req.drop (slot pmatch 1).so))
  seedLeechUses (clientSetListeningPort st c port) c req ((pmatch.set 1 (slot pmatch 0)).drop 1)

def getfileUses (st : Tracker) (current : Addr) (cli : HashTable Addr) : List KeyUse :=
  cli.flatMap fun e => if e.2 = current then [] else use st e.2

def Handler.uses : Handler → Tracker → Addr → CString → List KeyUse
  | .announce, st, c, v =>
      match regexec announceRegexp v with
      | none => []
      | some pmatch => announceUses st c v pmatch
  | .update, st, c, v =>
      match regexec updateRegexp v with
      | none => []
      | some pmatch => seedLeechUses st c v pmatch
  | .look, _, _, _ => []
  | .getfile, st, c, v =>
      let key := strTrimProtGetfile v
      if key.length ≠ keyhashStrsize then []
      else
        match (fileGetByKey st key).bind st.file with
        | none => []
        | some x => getfileUses st c x.clients

/-- The uses of one event of a connected client. -/
def Event.uses (st : Tracker) : Event → List KeyUse
  | .connect _ _ => []
  | .request c req =>
      match st.client c, dispatch req with
      | some _, some (handler, v) => handler.uses st c v
      | _, _ => []
  | .disconnect c =>
      match st.client c with
      | none => []
      | some cl => usesFor st c cl.files

theorem mem_use {u : KeyUse} : u ∈ use st c ↔ ∃ cl, st.client c = some cl ∧ u = ⟨c, cl.listenAddrKey⟩ := by
  simp [use, eq_comm]

theorem mem_usesFor {files : List Addr} {u : KeyUse} :
    u ∈ usesFor st c files ↔ files ≠ [] ∧ u ∈ use st c := by
  rw [usesFor, List.mem_flatMap]
  constructor
  · rintro ⟨f, hf, hu⟩
    exact ⟨List.ne_nil_of_mem hf, hu⟩
  · rintro ⟨hne, hu⟩
    obtain ⟨f, hf⟩ := List.exists_mem_of_ne_nil files hne
    exact ⟨f, hf, hu⟩

/-! ## Who has announced -/

/-- The client has sent an `announce` that was accepted. -/
def Announced (h : TrackerHistory) (c : Addr) : Prop := ∃ p ∈ h, ∃ d ∈ declaredBy c p.2, d.port ≠ none

instance (h : TrackerHistory) (c : Addr) : Decidable (Announced h c) :=
  inferInstanceAs (Decidable (∃ p ∈ h, ∃ d ∈ declaredBy c p.2, d.port ≠ none))

theorem announced_cons :
    Announced ((st, ev) :: h) c ↔ (∃ d ∈ declaredBy c ev, d.port ≠ none) ∨ Announced h c := by
  simp only [Announced, List.exists_mem_cons_iff]

theorem announced_quiet (hq : ev.Quiet) : Announced ((st, ev) :: h) c ↔ Announced h c := by
  rw [announced_cons, hq.1 c]
  simp

theorem announced_self {d : Declaration} (hd : declaration req = some d) :
    Announced ((st, .request c req) :: h) c ↔ d.port ≠ none ∨ Announced h c := by
  rw [announced_cons, declaredBy, if_pos rfl, hd]
  simp

theorem announced_other (hec : e ≠ c) : Announced ((st, .request c req) :: h) e ↔ Announced h e := by
  rw [announced_cons, declaredBy, if_neg hec.symm]
  simp

theorem announced_disconnect : Announced ((st, .disconnect c) :: h) e ↔ Announced h e := by
  rw [announced_cons, declaredBy]
  · simp
  · exact fun _ _ => Event.noConfusion

theorem latest_of_announced (ha : Announced h c) : latest c h ≠ none := by
  induction h with
  | nil =>
      obtain ⟨p, hp, -⟩ := ha
      cases hp
  | cons p h ih =>
      obtain ⟨st, ev⟩ := p
      rw [latest]
      cases hd : declaredBy c ev with
      | some d => exact Option.some_ne_none _
      | none =>
          rcases announced_cons.1 ha with ⟨d, hdd, -⟩ | ha
          · rw [hd] at hdd
            cases hdd
          · exact ih ha

/-- A client has its endpoint key if and only if it has announced. -/
theorem key_ne_none_iff (hrun : TrackerRun h st) :
    ∀ ⦃c cl⦄, st.client c = some cl → (cl.listenAddrKey ≠ none ↔ Announced h c) := by
  refine hrun.invariant_history ?_ ?_
  · intro c cl hc
    cases hc
  intro h st ev st' hr ih hs c cl hc
  -- A key is set by an announce only, and goes with its client.
  cases hs.cases (wellFormed_of_run hr) with
  | idle hq hidle =>
      rw [announced_quiet hq]
      exact ih (hidle ▸ hc)
  | joins hq hj =>
      rw [announced_quiet hq]
      rcases hj.client_cases hc with hc | ⟨rfl, -, hnone⟩
      · exact ih hc
      · refine iff_of_false (fun hne => hne hnone) fun ha => ?_
        exact latest_of_announced ha (latest_unborn hr (Nat.le_refl _))
  | @declares c' req d cl₀ cl' hev hreq hd =>
      subst hev
      by_cases hcc : c = c'
      · subst hcc
        obtain rfl := Option.some.inj (hd.after.symm.trans hc)
        rw [announced_self hreq, hd.endpoint, Declaration.endpoint]
        cases hport : d.port with
        | some port => exact iff_of_true (Option.some_ne_none _) (.inl (Option.some_ne_none _))
        | none => simpa using ih hd.before
      · rw [announced_other hcc]
        exact ih ((hd.others hcc).symm.trans hc)
  | leaves hev hl =>
      subst hev
      rw [announced_disconnect]
      exact ih (hl.client_cases hc).2

/-! ## Uses of a key that is not there -/

/-- Every use finds a key, and concerns a client that has announced. -/
def EndpointsSet (h : TrackerHistory) (st : Tracker) (ev : Event) : Prop :=
  ∀ u ∈ ev.uses st, u.key ≠ none ∧ Announced ((st, ev) :: h) u.client

instance (h : TrackerHistory) (st : Tracker) (ev : Event) : Decidable (EndpointsSet h st ev) :=
  inferInstanceAs (Decidable (∀ u ∈ ev.uses st, u.key ≠ none ∧ Announced ((st, ev) :: h) u.client))

/-- The seed clause registers a file with a piece size of zero, and faults before any file is listed. -/
def SeedFaults (st : Tracker) (req : CString) : Prop :=
  ∃ tab ∈ seedTab req, tab.length % 4 = 0 ∧ ¬ PiecesOk st [] tab

/-- An `update` comes from a client that has announced, names no file, or faults on its seed clause. -/
def Ready (h : TrackerHistory) (st : Tracker) : Event → Prop
  | .request c req => st.client c ≠ none → ∀ d ∈ declaration req, d.port = none →
      Announced h c ∨ (d.seedKeys = [] ∧ ∀ k ∈ d.leechKeys, fileGetByKey st k = none) ∨ SeedFaults st req
  | _ => True

theorem seedLeechUses_set_iff {pm : List RegMatch} (hreg : Registry st) (hc : st.client c = some cl) :
    (∀ u ∈ seedLeechUses st c v pm, u.key ≠ none) ↔
      cl.listenAddrKey ≠ none ∨
        (seedKeys (substr v (slot pm 1).so (slot pm 1).eo) = [] ∧
          ∀ k ∈ clauseTab v (slot pm 2), fileGetByKey st k = none) ∨
        ((clauseTab v (slot pm 1)).length % 4 = 0 ∧ ¬ PiecesOk st [] (clauseTab v (slot pm 1))) := by
  have hsome : (getSeedFileList st (substr v (slot pm 1).so (slot pm 1).eo)).isSome ↔ _ :=
    getSeedFileList_isSome hreg
  have hfaults : getSeedFileList st (substr v (slot pm 1).so (slot pm 1).eo) = none ↔
      (clauseTab v (slot pm 1)).length % 4 = 0 ∧ ¬ PiecesOk st [] (clauseTab v (slot pm 1)) := by
    rw [← Option.not_isSome_iff_eq_none, hsome, not_or, ne_eq, not_not]
    rfl
  rw [← hfaults, seedLeechUses]
  cases hseed : getSeedFileList st (substr v (slot pm 1).so (slot pm 1).eo) with
  | none => simp
  | some p =>
      obtain ⟨st₁, seeds⟩ := p
      obtain ⟨-, hgains, -, -⟩ := getSeedFileList_spec hreg hseed
      have hc₁ : st₁.client c = some cl := (hgains.client c).trans hc
      have hlists : seeds ++ getLeechFileList st₁ (substr v (slot pm 2).so (slot pm 2).eo) = [] ↔ _ :=
        lists_eq_nil_iff hreg hseed
      have huses : ∀ {files}, (∀ u ∈ usesFor st₁ c files, u.key ≠ none) ↔ cl.listenAddrKey ≠ none ∨ files = [] := by
        intro files
        constructor
        · intro h
          refine or_iff_not_imp_right.2 fun hne => ?_
          exact h _ (mem_usesFor.2 ⟨hne, mem_use.2 ⟨cl, hc₁, rfl⟩⟩)
        · rintro h u hu
          obtain ⟨hne, hu⟩ := mem_usesFor.1 hu
          obtain ⟨cl', hcl', rfl⟩ := mem_use.1 hu
          obtain rfl := Option.some.inj (hc₁.symm.trans hcl')
          exact h.resolve_right hne
      refine huses.trans ?_
      rw [hlists]
      simp [clauseTab]

/-- The client of a use is there, and has the key that the use finds. -/
theorem seedLeechUses_client {pm : List RegMatch} (hreg : Registry st) (hc : st.client c = some cl) {u : KeyUse}
    (hu : u ∈ seedLeechUses st c v pm) : u = ⟨c, cl.listenAddrKey⟩ := by
  rw [seedLeechUses] at hu
  split at hu
  · cases hu
  · next st₁ seeds hseed =>
      obtain ⟨-, hgains, -, -⟩ := getSeedFileList_spec hreg hseed
      obtain ⟨-, hu⟩ := mem_usesFor.1 hu
      obtain ⟨cl', hcl', rfl⟩ := mem_use.1 hu
      rw [hgains.client, hc] at hcl'
      rw [Option.some.inj hcl']

theorem announceUses_key {pm : List RegMatch} (hreg : Registry st) (hc : st.client c = some cl) {u : KeyUse}
    (hu : u ∈ announceUses st c v pm) : u.client = c ∧ u.key ≠ none := by
  let port := toUInt16 (atoi (v.drop (slot pm 1).so))
  let st₀ := clientSetListeningPort st c port
  have hc₀ : st₀.client c =
      some { cl with listeningPort := port, listenAddrKey := some (listenKey cl.addr port) } := by
    have hmod := client_modifyClient st c c fun cl =>
      { cl with listeningPort := port, listenAddrKey := some (listenKey cl.addr port) }
    rw [if_pos rfl, hc] at hmod
    exact hmod
  have hreg₀ : Registry st₀ := hreg.congr (fun _ => rfl) rfl
  obtain rfl := seedLeechUses_client hreg₀ hc₀ hu
  exact ⟨rfl, Option.some_ne_none _⟩

theorem getfileUses_key {x : File} (hw : WellFormed st) (hx : st.file f = some x) {u : KeyUse}
    (hu : u ∈ getfileUses st c x.clients) : ∃ cl, st.client u.client = some cl ∧ u.key = cl.listenAddrKey ∧
      cl.listenAddrKey ≠ none := by
  obtain ⟨⟨k, e⟩, he, hu⟩ := List.mem_flatMap.1 hu
  split at hu
  · cases hu
  · obtain ⟨cl, hcl, rfl⟩ := mem_use.1 hu
    exact ⟨cl, hcl, rfl, hw.endpoint ((Tracker.Holds.file hx).2 he) hcl⟩

/-- Uses of keys that clients have are of clients that have announced. -/
theorem endpointsSet_of_clients (hrun : TrackerRun h st)
    (huses : ∀ u ∈ ev.uses st, ∃ cl, st.client u.client = some cl ∧ u.key = cl.listenAddrKey) :
    EndpointsSet h st ev ↔ ∀ u ∈ ev.uses st, u.key ≠ none := by
  refine ⟨fun h u hu => (h u hu).1, fun h u hu => ⟨h u hu, announced_cons.2 (.inr ?_)⟩⟩
  obtain ⟨cl, hcl, hkey⟩ := huses u hu
  exact (key_ne_none_iff hrun hcl).1 (hkey ▸ h u hu)

theorem endpointsSet_disconnect (hrun : TrackerRun h st) (c : Addr) : EndpointsSet h st (.disconnect c) := by
  have huses : ∀ u ∈ (Event.disconnect c).uses st, ∃ cl, st.client u.client = some cl ∧
      u.key = cl.listenAddrKey ∧ cl.listenAddrKey ≠ none := by
    intro u hu
    rw [Event.uses] at hu
    split at hu
    · cases hu
    · next cl hcl =>
        obtain ⟨hne, hu⟩ := mem_usesFor.1 hu
        obtain ⟨cl', hcl', rfl⟩ := mem_use.1 hu
        obtain rfl := Option.some.inj (hcl.symm.trans hcl')
        exact ⟨cl, hcl, rfl, (wellFormed_of_run hrun).keyed hcl hne⟩
  refine (endpointsSet_of_clients hrun fun u hu => ?_).2 fun u hu => ?_
  · obtain ⟨cl, hcl, hkey, -⟩ := huses u hu
    exact ⟨cl, hcl, hkey⟩
  · obtain ⟨cl, -, hkey, hne⟩ := huses u hu
    exact hkey ▸ hne

theorem endpointsSet_of_uses_nil (hnil : ev.uses st = []) : EndpointsSet h st ev := by
  intro u hu
  rw [hnil] at hu
  cases hu

theorem ready_of_declaration_none (hd : declaration req = none) : Ready h st (.request c req) := by
  intro _ d hdd
  rw [hd] at hdd
  cases hdd

theorem ready_of_quiet (hq : ev.Quiet) : Ready h st ev := by
  cases ev with
  | request c req =>
      refine ready_of_declaration_none ?_
      have hd := hq.1 c
      rwa [declaredBy, if_pos rfl] at hd
  | connect socket addr => trivial
  | disconnect c => trivial

theorem uses_request (hc : st.client c = some cl) {handler : Handler} (hdisp : dispatch req = some (handler, v)) :
    (Event.request c req).uses st = handler.uses st c v := by
  simp only [Event.uses, hc, hdisp]

theorem endpointsSet_getfile (hrun : TrackerRun h st) (hc : st.client c = some cl)
    (hdisp : dispatch req = some (.getfile, v)) : EndpointsSet h st (.request c req) := by
  have huses : ∀ u ∈ (Event.request c req).uses st, ∃ cl, st.client u.client = some cl ∧
      u.key = cl.listenAddrKey ∧ cl.listenAddrKey ≠ none := by
    intro u hu
    rw [uses_request hc hdisp, Handler.uses] at hu
    split at hu
    · cases hu
    · split at hu
      · cases hu
      · next x hx =>
          obtain ⟨f, -, hx⟩ := Option.bind_eq_some_iff.1 hx
          exact getfileUses_key (wellFormed_of_run hrun) hx hu
  refine (endpointsSet_of_clients hrun fun u hu => ?_).2 fun u hu => ?_
  · obtain ⟨cl, hcl, hkey, -⟩ := huses u hu
    exact ⟨cl, hcl, hkey⟩
  · obtain ⟨cl, -, hkey, hne⟩ := huses u hu
    exact hkey ▸ hne

/-- The key is set before the files are listed. -/
theorem endpointsSet_announce (hrun : TrackerRun h st) (hc : st.client c = some cl)
    (hdisp : dispatch req = some (.announce, v)) : EndpointsSet h st (.request c req) := by
  cases hre : regexec announceRegexp v with
  | none =>
      refine endpointsSet_of_uses_nil ?_
      rw [uses_request hc hdisp, Handler.uses, hre]
  | some pm =>
      intro u hu
      rw [uses_request hc hdisp, Handler.uses, hre] at hu
      obtain ⟨hclient, hkey⟩ := announceUses_key (wellFormed_of_run hrun).toRegistry hc hu
      have hdecl : declaration req =
          some (declarationOf (some (toUInt16 (atoi (v.drop (slot pm 1).so)))) v (slot pm 2) (slot pm 3)) := by
        rw [declaration_dispatch, hdisp]
        simp only [hre, Option.map_some]
      rw [hclient]
      exact ⟨hkey, (announced_self hdecl).2 (.inl (Option.some_ne_none _))⟩

theorem endpointsSet_update (hrun : TrackerRun h st) (hc : st.client c = some cl)
    (hdisp : dispatch req = some (.update, v)) :
    EndpointsSet h st (.request c req) ↔ Ready h st (.request c req) := by
  have hw := wellFormed_of_run hrun
  have hdecl : declaration req =
      (regexec updateRegexp v).map fun pm => declarationOf none v (slot pm 1) (slot pm 2) := by
    rw [declaration_dispatch, hdisp]
  have htab : seedTab req = (regexec updateRegexp v).map fun pm => clauseTab v (slot pm 1) := by
    simp only [seedTab, hdisp]
    rfl
  have huses := uses_request hc hdisp
  rw [Handler.uses] at huses
  cases hre : regexec updateRegexp v with
  | none =>
      rw [hre] at hdecl huses
      exact iff_of_true (endpointsSet_of_uses_nil huses) (ready_of_declaration_none hdecl)
  | some pm =>
      rw [hre] at hdecl huses htab
      dsimp only at huses
      have hset : EndpointsSet h st (.request c req) ↔ ∀ u ∈ (Event.request c req).uses st, u.key ≠ none := by
        refine endpointsSet_of_clients hrun fun u hu => ?_
        rw [huses] at hu
        obtain rfl := seedLeechUses_client hw.toRegistry hc hu
        exact ⟨cl, hc, rfl⟩
      rw [hset, huses, seedLeechUses_set_iff hw.toRegistry hc, key_ne_none_iff hrun hc, Ready, hdecl, SeedFaults,
        htab]
      simp only [hc, Option.map_some, Option.mem_some, forall_eq', exists_eq_left', ne_eq, reduceCtorEq,
        not_false_eq_true, forall_const]
      exact ⟨fun h _ => h, fun h => h rfl⟩

/-- The uses of an event find a key, each of a client that has announced, if and only if it is ready. -/
theorem endpointsSet_iff (hrun : TrackerRun h st) (ev : Event) : EndpointsSet h st ev ↔ Ready h st ev := by
  -- Only an update can find no key: an announce sets it first.
  cases ev with
  | connect socket addr => exact iff_of_true (endpointsSet_of_uses_nil rfl) trivial
  | disconnect c => exact iff_of_true (endpointsSet_disconnect hrun c) trivial
  | request c req =>
      cases hc : st.client c with
      | none =>
          refine iff_of_true (endpointsSet_of_uses_nil ?_) fun hne => absurd hc hne
          simp only [Event.uses, hc]
      | some cl =>
          cases hdisp : dispatch req with
          | none =>
              refine iff_of_true (endpointsSet_of_uses_nil ?_) (ready_of_declaration_none ?_)
              · simp only [Event.uses, hc, hdisp]
              · rw [declaration_dispatch, hdisp]
          | some p =>
              obtain ⟨handler, v⟩ := p
              have hnone : handler = .look ∨ handler = .getfile → declaration req = none := by
                rintro (rfl | rfl) <;> rw [declaration_dispatch, hdisp]
              cases handler with
              | update => exact endpointsSet_update hrun hc hdisp
              | look =>
                  exact iff_of_true (endpointsSet_of_uses_nil (uses_request hc hdisp))
                    (ready_of_declaration_none (hnone (.inl rfl)))
              | getfile =>
                  exact iff_of_true (endpointsSet_getfile hrun hc hdisp)
                    (ready_of_declaration_none (hnone (.inr rfl)))
              | announce =>
                  refine iff_of_true (endpointsSet_announce hrun hc hdisp) fun _ d hd hport => ?_
                  rw [declaration_dispatch, hdisp] at hd
                  obtain ⟨pm, -, rfl⟩ := Option.map_eq_some_iff.1 hd
                  cases hport

/-! ## Whole runs -/

/-- A missing key is fatal: the steps that the tracker survives use none. -/
theorem endpointsSet_of_step (hrun : TrackerRun h st) (hs : Step st ev st') : EndpointsSet h st ev := by
  refine (endpointsSet_iff hrun ev).2 ?_
  cases hs.cases (wellFormed_of_run hrun) with
  | idle hq _ => exact ready_of_quiet hq
  | joins hq _ => exact ready_of_quiet hq
  | @declares c req d cl cl' hev hreq hd =>
      subst hev
      intro _ d' hd' hport
      obtain rfl := Option.some.inj (hreq.symm.trans hd')
      rcases hd.endpointOk with hkey | hnothing
      · rw [Declaration.endpoint, hport] at hkey
        exact .inl ((key_ne_none_iff hrun hd.before).1 hkey)
      · exact .inr (.inl hnothing)
  | leaves hev _ =>
      subst hev
      trivial

/-- In a run and the event that comes after it, every use finds a key, each of a client that has announced, if
and only if all events are ready. -/
theorem stepsMeet_endpointsSet_iff (hrun : TrackerRun h st) (ev : Event) :
    StepsMeet EndpointsSet ((st, ev) :: h) ↔ StepsMeet Ready ((st, ev) :: h) :=
  and_congr (endpointsSet_iff hrun ev) (hrun.stepsMeet_iff fun hr e => endpointsSet_iff hr e)

/-- `update seed [film 10 4 <filmKey>] leech []`. -/
def updateFilm : CString := "update seed [film 10 4 ".toList ++ filmKey ++ "] leech []".toList

theorem stepsMeet_endpointsSet_iff_announced : ∃ h st, TrackerRun h st ∧ h.length = 2 ∧
    (StepsMeet EndpointsSet ((st, .request 0 updateFilm) :: h) ↔
      StepsMeet Ready ((st, .request 0 updateFilm) :: h)) := by
  obtain ⟨h, st, hrun, hlen⟩ :=
    exists_run_of_replay [.connect 7 ⟨loopback, 4000⟩, .request 0 (announceFilm "6881".toList)]
      (P := fun h _ => h.length = 2) (by decide +kernel)
  exact ⟨h, st, hrun, hlen, stepsMeet_endpointsSet_iff hrun _⟩

/-- An `update` as the first request of a connection hands the missing key to `file_add_client`. -/
theorem update_before_announce : ∃ h st, TrackerRun h st ∧
    (⟨0, none⟩ : KeyUse) ∈ (Event.request 0 updateFilm).uses st ∧ ¬ Announced h 0 ∧
    ¬ StepsMeet EndpointsSet ((st, .request 0 updateFilm) :: h) ∧ stepFn st (.request 0 updateFilm) = none := by
  obtain ⟨h, st, hrun, huse, hnot, hfault⟩ :=
    exists_run_of_replay [.connect 7 ⟨loopback, 4000⟩]
      (P := fun h st => (⟨0, none⟩ : KeyUse) ∈ (Event.request 0 updateFilm).uses st ∧ ¬ Announced h 0 ∧
        stepFn st (.request 0 updateFilm) = none) (by decide +kernel)
  exact ⟨h, st, hrun, huse, hnot, fun hall => (hall.1 _ huse).1 rfl, hfault⟩

end CTracker
end Raiezau
