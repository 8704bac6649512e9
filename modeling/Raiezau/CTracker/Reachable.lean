import Raiezau.CTracker.Steps

/-!
# Reachable — what every run of the tracker keeps, whatever the requests

Every step has one of four shapes (`StepCase`).  From them: reachable states are `WellFormed`, and a
live client's two lists hold exactly the registered files that its latest declaration names
(`mem_files_iff`).  Neither says anything about the client tables; those are the subject of
`Membership`.
-/

namespace Raiezau
namespace CTracker

open Memory CUtil Text Machine Assoc

variable {st st' : Tracker} {h : TrackerHistory} {ev : Event} {c f : Addr} {key : CString}
  {cl cl' : Client} {d : Declaration}

/-! ## The four shapes of a step -/

/-- The event declares nothing and disconnects no one. -/
def Event.Quiet (ev : Event) : Prop := (∀ c, declaredBy c ev = none) ∧ ∀ c, ev ≠ .disconnect c

inductive StepCase (st : Tracker) (ev : Event) (st' : Tracker) : Prop where
  | idle : ev.Quiet → st' = st → StepCase st ev st'
  | joins : ev.Quiet → Joins st st' → StepCase st ev st'
  | declares {c : Addr} {req : CString} {d : Declaration} {cl cl' : Client} :
      ev = .request c req → declaration req = some d → Declares c d cl cl' st st' → StepCase st ev st'
  | leaves {c : Addr} {cl : Client} : ev = .disconnect c → Leaves c cl st st' → StepCase st ev st'

theorem Step.cases (hw : WellFormed st) (hs : Step st ev st') : StepCase st ev st' := by
  cases ev with
  | connect socket addr =>
      have hquiet : (Event.connect socket addr).Quiet := ⟨fun _ => rfl, fun _ => Event.noConfusion⟩
      obtain rfl : (clientGetOrCreate st socket addr).1 = st' := Option.some.inj hs
      rcases clientGetOrCreate_spec st socket addr with hidle | hjoin
      · exact .idle hquiet hidle
      · exact .joins hquiet hjoin
  | request c req =>
      simp only [Step, stepFn, Option.bind_eq_bind, Option.bind_eq_some_iff] at hs
      obtain ⟨cl, hc, ⟨st₁, out⟩, hreq, hpure⟩ := hs
      obtain rfl : st₁ = st' := Option.some.inj hpure
      rcases handleRequest_cases hw.toRegistry hw.tables hc hreq with ⟨hnone, hidle⟩ | ⟨d, cl', hd, hdec⟩
      · refine .idle ⟨fun e => ?_, fun _ => Event.noConfusion⟩ hidle
        simp [declaredBy, hnone]
      · exact .declares rfl hd hdec
  | disconnect c =>
      obtain ⟨cl, hleave⟩ := deleteClient_spec hw.toRegistry hw.tables hs
      exact .leaves rfl hleave

/-! ## Reachable states are well formed -/

theorem wellFormed_init : WellFormed Tracker.init where
  unique := List.nodup_nil
  file_of_key := by
    intro key f hk
    cases hk
  key_of_file := by
    intro f x hx
    cases hx
  tables := by
    intro f x hx
    cases hx
  listed := by
    intro c cl f hc
    cases hc
  keyed := by
    intro c cl hc
    cases hc
  known := by
    rintro f key c ⟨x, hx, -⟩
    cases hx
  endpoint := by
    rintro f key c cl ⟨x, hx, -⟩
    cases hx

theorem Joins.holds (hj : Joins st st') : st'.Holds f key c ↔ st.Holds f key c := by
  simp [Tracker.Holds, hj.file]

/-- The records of a state a client has joined: those there were, and one with empty lists. -/
theorem Joins.client_cases (hj : Joins st st') (hc : st'.client c = some cl) :
    st.client c = some cl ∨ (c = st.clientHeap.fresh ∧ cl.files = [] ∧ cl.listenAddrKey = none) := by
  by_cases hnew : c = st.clientHeap.fresh
  · obtain ⟨cl₀, hcl₀, hfiles, hkey⟩ := hj.new
    obtain rfl : cl₀ = cl := by
      rw [hnew, hcl₀] at hc
      exact Option.some.inj hc
    exact .inr ⟨hnew, hfiles, hkey⟩
  · exact .inl ((hj.old hnew).symm.trans hc)

theorem Joins.wellFormed (hj : Joins st st') (hw : WellFormed st) : WellFormed st' where
  toRegistry := hw.toRegistry.congr hj.file hj.fileByHash
  tables := fun hx => hw.tables ((hj.file _).symm.trans hx)
  listed := by
    intro c cl f hc hf
    rw [hj.file]
    rcases hj.client_cases hc with hc | ⟨-, hfiles, -⟩
    · exact hw.listed hc hf
    · simp [hfiles] at hf
  keyed := by
    intro c cl hc hne
    rcases hj.client_cases hc with hc | ⟨-, hfiles, -⟩
    · exact hw.keyed hc hne
    · exact absurd hfiles hne
  known := by
    intro f key c hh
    rw [hj.fresh]
    exact Nat.lt_succ_of_lt (hw.known (hj.holds.1 hh))
  endpoint := by
    intro f key c cl hh hc
    have hold := hj.holds.1 hh
    rcases hj.client_cases hc with hc | ⟨rfl, -, -⟩
    · exact hw.endpoint hold hc
    · exact absurd (hw.known hold) (Nat.lt_irrefl _)

theorem Declares.holds_old (hd : Declares c d cl cl' st st') {e : Addr} (hh : st.Holds f key e) :
    st'.Holds f key e :=
  hd.holds.2 (.inl hh)

/-- A declaration never takes a client's endpoint away. -/
theorem Declaration.endpoint_ne_none (hkey : cl.listenAddrKey ≠ none) : d.endpoint cl ≠ none := by
  unfold Declaration.endpoint
  cases d.port with
  | none => exact hkey
  | some port => simp

theorem Declares.wellFormed (hd : Declares c d cl cl' st st') (hw : WellFormed st) :
    WellFormed st' where
  toRegistry := hd.registry
  tables := hd.tables
  listed := by
    intro e cle f he hf
    by_cases hec : e = c
    · subst hec
      obtain rfl := Option.some.inj (hd.after.symm.trans he)
      exact hd.listed hf
    · obtain ⟨x, hx⟩ := hw.listed ((hd.others hec).symm.trans he) hf
      obtain ⟨x', hx', -⟩ := hd.file_old hx
      exact ⟨x', hx'⟩
  keyed := by
    intro e cle he hne
    by_cases hec : e = c
    · subst hec
      obtain rfl := Option.some.inj (hd.after.symm.trans he)
      exact hd.keyed hne
    · exact hw.keyed ((hd.others hec).symm.trans he) hne
  known := by
    intro f k e hh
    rw [hd.fresh]
    rcases hd.holds.1 hh with hold | ⟨rfl, -, -, -⟩
    · exact hw.known hold
    · exact Heap.lt_fresh_of_read hd.before
  endpoint := by
    intro f k e cle hh he
    by_cases hec : e = c
    · subst hec
      obtain rfl := Option.some.inj (hd.after.symm.trans he)
      rcases hd.holds.1 hh with hold | ⟨-, hk, -, -⟩
      · rw [hd.endpoint]
        exact Declaration.endpoint_ne_none (hw.endpoint hold hd.before)
      · simp [hk]
    · rcases hd.holds.1 hh with hold | ⟨rfl, -, -, -⟩
      · exact hw.endpoint hold ((hd.others hec).symm.trans he)
      · exact absurd rfl hec

/-- A client that has left is no longer there; the others are untouched. -/
theorem Leaves.client_cases (hl : Leaves c cl st st') {e : Addr} {cle : Client}
    (he : st'.client e = some cle) : e ≠ c ∧ st.client e = some cle := by
  by_cases hec : e = c
  · rw [hec, hl.after] at he
    cases he
  · exact ⟨hec, (hl.others hec).symm.trans he⟩

theorem Leaves.wellFormed (hl : Leaves c cl st st') (hw : WellFormed st) : WellFormed st' where
  toRegistry := hl.registry
  tables := hl.tables
  listed := by
    intro e cle f he hf
    obtain ⟨x, hx⟩ := hw.listed (hl.client_cases he).2 hf
    obtain ⟨x', hx', -⟩ := hl.file_old hx
    exact ⟨x', hx'⟩
  keyed := fun he => hw.keyed (hl.client_cases he).2
  known := by
    intro f k e hh
    rw [hl.fresh]
    exact hw.known (hl.holds.1 hh).1
  endpoint := fun hh he => hw.endpoint (hl.holds.1 hh).1 (hl.client_cases he).2

theorem WellFormed.step (hw : WellFormed st) (hs : Step st ev st') : WellFormed st' := by
  cases hs.cases hw with
  | idle _ hidle => exact hidle ▸ hw
  | joins _ hj => exact hj.wellFormed hw
  | declares _ _ hd => exact hd.wellFormed hw
  | leaves _ hl => exact hl.wellFormed hw

theorem wellFormed_of_run (hrun : TrackerRun h st) : WellFormed st :=
  hrun.invariant wellFormed_init fun hw hs => hw.step hs

/-! ## Files stay registered -/

/-- Registered files keep their address and their key. -/
theorem StepCase.file_old (hs : StepCase st ev st') {x : File} (hx : st.file f = some x) :
    ∃ x', st'.file f = some x' ∧ x'.md5Str = x.md5Str := by
  cases hs with
  | idle _ hidle => exact ⟨x, hidle ▸ hx, rfl⟩
  | joins _ hj => exact ⟨x, (hj.file f).trans hx, rfl⟩
  | declares _ _ hd => exact hd.file_old hx
  | leaves _ hl => exact hl.file_old hx

theorem fileGetByKey_step (hw : WellFormed st) (hs : Step st ev st') {k : CString}
    (hk : fileGetByKey st k = some f) : fileGetByKey st' k = some f := by
  obtain ⟨x, hx, rfl⟩ := hw.file_of_key hk
  obtain ⟨x', hx', hkey⟩ := (hs.cases hw).file_old hx
  rw [← hkey]
  exact (hw.step hs).key_of_file hx'

/-- A file that was registered under its key before the step was there before the step. -/
theorem file_before (hw : WellFormed st) (hs : Step st ev st') {x : File}
    (hx : st'.file f = some x) (hreg : fileGetByKey st x.md5Str ≠ none) :
    ∃ y, st.file f = some y ∧ y.md5Str = x.md5Str := by
  cases hk : fileGetByKey st x.md5Str with
  | none => exact absurd hk hreg
  | some g =>
      have hself : fileGetByKey st' x.md5Str = some f := (hw.step hs).key_of_file hx
      obtain rfl : g = f := Option.some.inj ((fileGetByKey_step hw hs hk).symm.trans hself)
      exact hw.file_of_key hk

/-! ## The latest declaration -/

theorem latest_quiet (hq : ev.Quiet) (c : Addr) : latest c ((st, ev) :: h) = latest c h := by
  simp [latest, hq.1 c]

theorem latest_disconnect (c e : Addr) :
    latest e ((st, .disconnect c) :: h) = latest e h := rfl

theorem latest_self {req : CString} (hd : declaration req = some d) :
    latest c ((st, .request c req) :: h) = some (st, d) := by
  simp [latest, declaredBy, hd]

theorem latest_other {req : CString} {e : Addr} (he : e ≠ c) :
    latest e ((st, .request c req) :: h) = latest e h := by
  simp [latest, declaredBy, he.symm]

/-- Whose latest declaration a step changes. -/
theorem latestNames_other {e : Addr} (he : e ≠ c) {req : CString} {k : CString} :
    LatestNames ((st, .request c req) :: h) e k ↔ LatestNames h e k := by
  simp [LatestNames, latest_other he]

theorem latestNames_self {req : CString} (hd : declaration req = some d) {k : CString} :
    LatestNames ((st, .request c req) :: h) c k ↔ d.Names st k := by
  simp [LatestNames, latest_self hd]

theorem latestNames_quiet (hq : ev.Quiet) {k : CString} :
    LatestNames ((st, ev) :: h) c k ↔ LatestNames h c k := by
  simp [LatestNames, latest_quiet hq]

/-- An address not handed out yet has declared nothing. -/
theorem latest_unborn (hrun : TrackerRun h st) :
    ∀ ⦃c⦄, st.clientHeap.fresh ≤ c → latest c h = none := by
  refine hrun.invariant_history ?_ ?_
  · intro c _
    rfl
  intro h st ev st' hr ih hs c hle
  cases hs.cases (wellFormed_of_run hr) with
  | idle hq hidle =>
      rw [latest_quiet hq]
      exact ih (hidle ▸ hle)
  | joins hq hj =>
      rw [hj.fresh] at hle
      rw [latest_quiet hq]
      exact ih (Nat.le_of_succ_le hle)
  | declares hev _ hd =>
      rw [hd.fresh] at hle
      rw [hev, latest_other (Nat.ne_of_gt (Nat.lt_of_lt_of_le (Heap.lt_fresh_of_read hd.before) hle))]
      exact ih hle
  | leaves hev hl =>
      rw [hev, latest_disconnect]
      exact ih (hl.fresh ▸ hle)

/-- The keys a declaration names are registered, from then on. -/
theorem registered_of_latestNames (hrun : TrackerRun h st) :
    ∀ ⦃c k⦄, LatestNames h c k → fileGetByKey st k ≠ none := by
  refine hrun.invariant_history ?_ ?_
  · rintro c k ⟨p, hp, -⟩
    cases hp
  intro h st ev st' hr ih hs c k hn
  have hw := wellFormed_of_run hr
  have hkeep : fileGetByKey st k ≠ none → fileGetByKey st' k ≠ none := by
    intro hk
    obtain ⟨f, hf⟩ := Option.ne_none_iff_exists'.1 hk
    simp [fileGetByKey_step hw hs hf]
  cases hs.cases hw with
  | idle hq _ => exact hkeep (ih ((latestNames_quiet hq).1 hn))
  | joins hq _ => exact hkeep (ih ((latestNames_quiet hq).1 hn))
  | @declares c' req d _ _ hev hreq hd =>
      subst hev
      by_cases hcc : c = c'
      · subst hcc
        rcases (latestNames_self hreq).1 hn with hseed | ⟨-, hold⟩
        · exact hd.domain.2 (.inr hseed)
        · exact hkeep hold
      · exact hkeep (ih ((latestNames_other hcc).1 hn))
  | leaves hev _ =>
      subst hev
      exact hkeep (ih hn)

/-- A client's two lists hold the registered files that its latest declaration names. -/
theorem mem_files_iff (hrun : TrackerRun h st) :
    ∀ ⦃c cl f x⦄, st.client c = some cl → st.file f = some x →
      (f ∈ cl.files ↔ LatestNames h c x.md5Str) := by
  refine hrun.invariant_history ?_ ?_
  · intro c cl f x hc
    cases hc
  intro h st ev st' hr ih hs c cl f x hc hx
  have hw := wellFormed_of_run hr
  -- For a client the step leaves alone, only a file that was there already can be listed or named.
  have hframe : st.client c = some cl → (f ∈ cl.files ↔ LatestNames h c x.md5Str) := by
    intro hc₀
    constructor
    · intro hf
      obtain ⟨y, hy⟩ := hw.listed hc₀ hf
      obtain ⟨y', hy', hkey⟩ := (hs.cases hw).file_old hy
      obtain rfl := Option.some.inj (hy'.symm.trans hx)
      exact hkey ▸ (ih hc₀ hy).1 hf
    · intro hn
      obtain ⟨y, hy, hkey⟩ := file_before hw hs hx (registered_of_latestNames hr hn)
      exact (ih hc₀ hy).2 (hkey ▸ hn)
  cases hs.cases hw with
  | idle hq hidle =>
      rw [latestNames_quiet hq]
      exact hframe (hidle ▸ hc)
  | joins hq hj =>
      rw [latestNames_quiet hq]
      rcases hj.client_cases hc with hc | ⟨rfl, hfiles, -⟩
      · exact hframe hc
      · simp [hfiles, LatestNames, latest_unborn hr (Nat.le_refl _)]
  | @declares c' req d _ _ hev hreq hd =>
      subst hev
      by_cases hcc : c = c'
      · subst hcc
        obtain rfl := Option.some.inj (hd.after.symm.trans hc)
        rw [latestNames_self hreq]
        exact hd.names hx
      · rw [latestNames_other hcc]
        exact hframe ((hd.others hcc).symm.trans hc)
  | leaves hev hl =>
      subst hev
      exact hframe (hl.client_cases hc).2

end CTracker
end Raiezau
