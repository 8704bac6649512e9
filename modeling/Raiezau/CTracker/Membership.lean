import Raiezau.CTracker.Reachable

/-!
# Membership — whom the client tables list, along a run

Three properties of the client tables over whole runs, each with the exact condition on the steps under
which it is never lost:

* no table entry points to a freed client (`noDangling_iff`);
* a file's table lists exactly the connected clients whose latest declaration names the file
  (`membershipFollows_iff`);
* no client loses or is refused a table entry because of another (`undisturbed_iff`).

A declaration replaces a client's two lists but never takes the client out of a table; only its
disconnection does, and only under its current endpoint and for its current lists.
-/

namespace Raiezau
namespace CTracker

open Memory CUtil Text Machine Assoc

variable {st st' : Tracker} {h : TrackerHistory} {ev : Event} {c f : Addr} {key : CString}
  {cl cl' : Client} {d : Declaration}

/-! ## Table entries after a step -/

theorem Declares.holds_other (hd : Declares c d cl cl' st st') {e : Addr} (he : e ≠ c) :
    st'.Holds f key e ↔ st.Holds f key e := by
  rw [hd.holds]
  exact or_iff_left fun hnew => he hnew.1

theorem Declares.live (hd : Declares c d cl cl' st st') {e : Addr} :
    (∃ cle, st'.client e = some cle) ↔ ∃ cle, st.client e = some cle := by
  by_cases he : e = c
  · rw [he]
    exact ⟨fun _ => ⟨cl, hd.before⟩, fun _ => ⟨cl', hd.after⟩⟩
  · rw [hd.others he]

theorem Joins.live_old (hj : Joins st st') {e : Addr} (he : e ≠ st.clientHeap.fresh) :
    (∃ cle, st'.client e = some cle) ↔ ∃ cle, st.client e = some cle := by
  rw [hj.old he]

theorem WellFormed.not_holds_fresh (hw : WellFormed st) : ¬ st.Holds f key st.clientHeap.fresh :=
  fun hh => Nat.lt_irrefl _ (hw.known hh)

/-! ## Sessions -/

def dropAll : CString := "update seed [] leech []".toList

/-- Two clients announce the same file under endpoints of their own; the first one disconnects. -/
def orderlySession : List Event :=
  [.connect 5 ⟨loopback, 4000⟩, .connect 6 ⟨loopback, 4001⟩,
    .request 0 (announceFilm "6881".toList), .request 1 (announceFilm "6882".toList), .disconnect 0]

/-- A client announces a file, drops it in an update and disconnects; then another one connects. -/
def droppedFileSession : List Event :=
  [.connect 5 ⟨loopback, 4000⟩, .request 0 (announceFilm "6881".toList), .request 0 dropAll,
    .disconnect 0, .connect 6 ⟨loopback, 4001⟩]

/-- Two clients announce the same file under the same endpoint; the second one disconnects. -/
def sharedEndpointSession : List Event :=
  [.connect 5 ⟨loopback, 4000⟩, .connect 6 ⟨loopback, 4001⟩,
    .request 0 (announceFilm "6881".toList), .request 1 (announceFilm "6881".toList), .disconnect 1]

/-! ## Freed clients -/

/-- No entry of a client table points to a freed client. -/
def NoDangling (st : Tracker) : Prop := ∀ f key c, st.Holds f key c → ¬ st.clientHeap.Freed c

/-- No `getfile` reads a freed client, whoever asks and whatever for. -/
def GetfileSafe (st : Tracker) : Prop := ∀ c reqValue, protGetfile st c reqValue ≠ none

/-- A client that disconnects has entries only in the files of its lists, under its current endpoint. -/
def LeavesNothing (_ : TrackerHistory) (st : Tracker) : Event → Prop
  | .disconnect c => ∀ cl, st.client c = some cl →
      ∀ f key, st.Holds f key c → f ∈ cl.files ∧ cl.listenAddrKey = some key
  | _ => True

instance (h : TrackerHistory) (st : Tracker) : ∀ ev, Decidable (LeavesNothing h st ev)
  | .connect _ _ => .isTrue trivial
  | .request _ _ => .isTrue trivial
  | .disconnect c =>
      decidable_of_iff (∀ cl ∈ st.client c, ∀ e ∈ st.entries,
          e.2.2 = c → e.1 ∈ cl.files ∧ cl.listenAddrKey = some e.2.1) <| by
        refine forall₂_congr fun cl _ => ?_
        rw [← Tracker.forall_holds_iff (Q := fun f k e => e = c → f ∈ cl.files ∧ cl.listenAddrKey = some k)]
        exact ⟨fun hq f k hh => hq f k c hh rfl, fun hq f k e hh he => hq f k (he ▸ hh)⟩

theorem leavesNothing_of_quiet (hq : ev.Quiet) : LeavesNothing h st ev := by
  cases ev with
  | disconnect c => exact absurd rfl (hq.2 c)
  | _ => trivial

theorem noDangling_live (hw : WellFormed st) (hn : NoDangling st) (hh : st.Holds f key c) :
    ∃ cl, st.client c = some cl := by
  cases hc : st.client c with
  | some cl => exact ⟨cl, rfl⟩
  | none => exact absurd ⟨hw.known hh, hc⟩ (hn f key c hh)

theorem not_freed_of_live (hc : st.client c = some cl) : ¬ st.clientHeap.Freed c := by
  rintro ⟨-, hnone⟩
  have hsome : st.clientHeap.read c = some cl := hc
  rw [hnone] at hsome
  cases hsome

/-- The peer list of a table all of whose clients are live, with their endpoints, can be built. -/
theorem buildPeerStringList_isSome {cli : HashTable Addr}
    (hlive : ∀ k e, (k, e) ∈ cli → ∃ cl key, st.client e = some cl ∧ cl.listenAddrKey = some key) :
    ∃ s, protGetfileBuildPeerStringList st c cli = some s := by
  unfold protGetfileBuildPeerStringList
  generalize ([] : CString) = output
  induction cli generalizing output with
  | nil => exact ⟨output, rfl⟩
  | cons p cli ih =>
      obtain ⟨cl, key, hcl, hkey⟩ := hlive p.1 p.2 List.mem_cons_self
      have htail := ih fun k e hm => hlive k e (List.mem_cons_of_mem _ hm)
      rw [List.foldlM_cons]
      by_cases hself : p.2 = c
      · simpa [hself] using htail output
      · simpa [hself, hcl, hkey] using htail _

theorem getfileSafe_of_noDangling (hw : WellFormed st) (hn : NoDangling st) : GetfileSafe st := by
  intro c reqValue
  unfold protGetfile
  simp only
  split
  · simp
  · cases hk : fileGetByKey st (strTrimProtGetfile reqValue) with
    | none => simp
    | some f =>
        obtain ⟨x, hx, -⟩ := hw.file_of_key hk
        have hlive : ∀ k e, (k, e) ∈ x.clients →
            ∃ cl key, st.client e = some cl ∧ cl.listenAddrKey = some key := by
          intro k e hm
          have hh : st.Holds f k e := ⟨x, hx, hm⟩
          obtain ⟨cl, hcl⟩ := noDangling_live hw hn hh
          obtain ⟨key, hkey⟩ := Option.ne_none_iff_exists'.1 (hw.endpoint hh hcl)
          exact ⟨cl, key, hcl, hkey⟩
        obtain ⟨s, hs⟩ := buildPeerStringList_isSome (c := c) hlive
        simp [hx, hs]

theorem noDangling_step (hw : WellFormed st) (hn : NoDangling st) (hs : Step st ev st') :
    NoDangling st' ↔ LeavesNothing h st ev := by
  -- Only a client that leaves can leave an entry behind.
  cases hs.cases hw with
  | idle hq hidle => exact ⟨fun _ => leavesNothing_of_quiet hq, fun _ => hidle ▸ hn⟩
  | joins hq hj =>
      refine ⟨fun _ => leavesNothing_of_quiet hq, fun _ f k e hh => ?_⟩
      have hold := hj.holds.1 hh
      obtain ⟨cle, hcle⟩ := noDangling_live hw hn hold
      have hne : e ≠ st.clientHeap.fresh := Nat.ne_of_lt (hw.known hold)
      exact not_freed_of_live ((hj.old hne).trans hcle)
  | declares hev _ hd =>
      subst hev
      refine ⟨fun _ => trivial, fun _ f k e hh => ?_⟩
      have hlive : ∃ cle, st.client e = some cle := by
        rcases hd.holds.1 hh with hold | ⟨rfl, -, -, -⟩
        · exact noDangling_live hw hn hold
        · exact ⟨_, hd.before⟩
      obtain ⟨cle, hcle⟩ := hd.live.2 hlive
      exact not_freed_of_live hcle
  | @leaves c cl hev hl =>
      subst hev
      have hfreed : st'.clientHeap.Freed c :=
        ⟨hl.fresh ▸ Heap.lt_fresh_of_read hl.before, hl.after⟩
      constructor
      · intro hn' cl₀ hcl₀ f k hh
        obtain rfl := Option.some.inj (hl.before.symm.trans hcl₀)
        by_contra hleft
        exact hn' f k c (hl.holds.2 ⟨hh, hleft⟩) hfreed
      · intro hok f k e hh
        obtain ⟨hold, hkept⟩ := hl.holds.1 hh
        by_cases hec : e = c
        · subst hec
          exact absurd (hok cl hl.before f k hold) hkept
        · obtain ⟨cle, hcle⟩ := noDangling_live hw hn hold
          exact not_freed_of_live ((hl.others hec).trans hcle)

/-- A run never meets a dangling entry, nor a `getfile` that would read one, exactly if every client
that disconnects leaves nothing behind. -/
theorem noDangling_iff (hrun : TrackerRun h st) :
    Along (fun _ s => NoDangling s ∧ GetfileSafe s) h st ↔ StepsMeet LeavesNothing h := by
  refine hrun.along_iff_stepsMeet ?_ ?_
  · have hn : NoDangling Tracker.init := by
      rintro f key c ⟨x, hx, -⟩
      cases hx
    exact ⟨hn, getfileSafe_of_noDangling wellFormed_init hn⟩
  · intro h st ev st' hr hp hs
    have hw := wellFormed_of_run hr
    rw [← noDangling_step hw hp.1 hs]
    exact ⟨And.left, fun hn => ⟨hn, getfileSafe_of_noDangling (hw.step hs) hn⟩⟩

theorem noDangling_iff_orderly : ∃ h st, TrackerRun h st ∧ h.length = 5 ∧
    Along (fun _ s => NoDangling s ∧ GetfileSafe s) h st := by
  obtain ⟨h, st, hrun, hlen, hok⟩ :=
    exists_run_of_replay orderlySession (P := fun h _ => h.length = 5 ∧ StepsMeet LeavesNothing h)
      (by decide +kernel)
  exact ⟨h, st, hrun, hlen, (noDangling_iff hrun).2 hok⟩

/-- After the dropped file's client has gone, asking for the file's peers reads the freed client. -/
theorem dangling_after_drop : ∃ h st, TrackerRun h st ∧
    ∃ f key c, st.Holds f key c ∧ st.clientHeap.Freed c ∧ protGetfile st 1 filmKey = none := by
  obtain ⟨h, st, hrun, hholds, hfreed, hget⟩ :=
    exists_run_of_replay droppedFileSession
      (P := fun _ st => st.Holds 0 (listenKey ⟨loopback, 4000⟩ 6881) 0 ∧ st.clientHeap.Freed 0 ∧
        (protGetfile st 1 filmKey).isNone)
      (by decide +kernel)
  exact ⟨h, st, hrun, 0, _, 0, hholds, hfreed, Option.isNone_iff_eq_none.1 hget⟩

/-! ## Membership follows the latest declaration -/

/-- A registered file's table lists the connected clients whose latest declaration names the file. -/
def MembershipFollows (h : TrackerHistory) (st : Tracker) : Prop :=
  ∀ f x c, st.file f = some x →
    ((∃ key, st.Holds f key c) ↔ (∃ cl, st.client c = some cl) ∧ LatestNames h c x.md5Str)

/-- The endpoint of a connected client that has announced. -/
def Tracker.endpoint (st : Tracker) (c : Addr) : Option CString := (st.client c).bind Client.listenAddrKey

/-- Connected clients have different endpoints. -/
def DistinctEndpoints (st : Tracker) : Prop :=
  ∀ c e, st.endpoint c ≠ none → st.endpoint c = st.endpoint e → c = e

/-- An accepted `update` comes after an earlier declaration of the same client. -/
def AnnouncesFirst (h : TrackerHistory) (_ : Tracker) : Event → Prop
  | .request c req => ∀ d, declaration req = some d → d.port = none → latest c h ≠ none
  | _ => True

instance (h : TrackerHistory) (st : Tracker) : ∀ ev, Decidable (AnnouncesFirst h st ev)
  | .connect _ _ => .isTrue trivial
  | .request c req =>
      inferInstanceAs (Decidable (∀ d ∈ declaration req, d.port = none → latest c h ≠ none))
  | .disconnect _ => .isTrue trivial

theorem Tracker.lt_fresh_of_endpoint (hk : st.endpoint c ≠ none) : c < st.clientHeap.fresh := by
  cases hc : st.client c with
  | none => simp [Tracker.endpoint, hc] at hk
  | some cl => exact Heap.lt_fresh_of_read hc

instance (st : Tracker) : Decidable (DistinctEndpoints st) :=
  decidable_of_iff (∀ c, c < st.clientHeap.fresh → ∀ e, e < st.clientHeap.fresh →
      st.endpoint c ≠ none → st.endpoint c = st.endpoint e → c = e)
    ⟨fun hq c e hc he => hq c (Tracker.lt_fresh_of_endpoint hc) e
        (Tracker.lt_fresh_of_endpoint (he ▸ hc)) hc he,
      fun hq c _ e _ hc he => hq c e hc he⟩

/-- A declaration names again every file of the client's previous one, and no table has an entry yet
under its endpoint for the files it adds.  A disconnecting client is in the tables under its current
endpoint only. -/
def Steady (h : TrackerHistory) (st : Tracker) : Event → Prop
  | .request c req => ∀ cl, st.client c = some cl → ∀ d, declaration req = some d →
      ∀ f x, st.file f = some x →
        (LatestNames h c x.md5Str → d.Names st x.md5Str) ∧
        (d.Names st x.md5Str → ¬ LatestNames h c x.md5Str →
          ∀ key, d.endpoint cl = some key → ¬ st.Occupied f key)
  | .disconnect c => ∀ cl, st.client c = some cl →
      ∀ f key, st.Holds f key c → cl.listenAddrKey = some key
  | .connect _ _ => True

instance (h : TrackerHistory) (st : Tracker) : ∀ ev, Decidable (Steady h st ev)
  | .connect _ _ => .isTrue trivial
  | .request c req =>
      decidable_of_iff (∀ cl ∈ st.client c, ∀ d ∈ declaration req,
          ∀ f, f < st.fileHeap.fresh → ∀ x ∈ st.file f,
            (LatestNames h c x.md5Str → d.Names st x.md5Str) ∧
            (d.Names st x.md5Str → ¬ LatestNames h c x.md5Str →
              ∀ key ∈ d.endpoint cl, ¬ st.Occupied f key))
        ⟨fun hq cl hc d hd f x hx => hq cl hc d hd f (Heap.lt_fresh_of_read hx) x hx,
          fun hq cl hc d hd f _ x hx => hq cl hc d hd f x hx⟩
  | .disconnect c =>
      decidable_of_iff (∀ cl ∈ st.client c, ∀ e ∈ st.entries,
          e.2.2 = c → cl.listenAddrKey = some e.2.1) <| by
        refine forall₂_congr fun cl _ => ?_
        rw [← Tracker.forall_holds_iff (Q := fun _ k e => e = c → cl.listenAddrKey = some k)]
        exact ⟨fun hq f k hh => hq f k c hh rfl, fun hq f k e hh he => hq f k (he ▸ hh)⟩

theorem steady_of_quiet (hq : ev.Quiet) : Steady h st ev := by
  cases ev with
  | connect socket addr => trivial
  | disconnect c => exact absurd rfl (hq.2 c)
  | request c req =>
      intro cl _ d hd
      have hnone := hq.1 c
      simp [declaredBy, hd] at hnone

/-- Entries and names both speak of files that were there before the step. -/
theorem file_before_of_latestNames (hr : TrackerRun h st) (hs : Step st ev st') {x : File}
    (hx : st'.file f = some x) (hn : LatestNames h c x.md5Str) :
    ∃ y, st.file f = some y ∧ y.md5Str = x.md5Str :=
  file_before (wellFormed_of_run hr) hs hx (registered_of_latestNames hr hn)

theorem md5Str_eq_of_step (hw : WellFormed st) (hs : Step st ev st') {x y : File}
    (hy : st.file f = some y) (hx : st'.file f = some x) : y.md5Str = x.md5Str := by
  obtain ⟨y', hy', hkey⟩ := (hs.cases hw).file_old hy
  rw [← hkey, Option.some.inj (hy'.symm.trans hx)]

/-- What a step does not touch: a client whose record, entries and latest declaration stay. -/
theorem membership_frame (hr : TrackerRun h st) (hp : MembershipFollows h st) (hs : Step st ev st')
    {x : File} (hx : st'.file f = some x) :
    (∃ key, st.Holds f key c) ↔ (∃ cl, st.client c = some cl) ∧ LatestNames h c x.md5Str := by
  have hw := wellFormed_of_run hr
  constructor
  · rintro ⟨key, hh⟩
    obtain ⟨y, hy⟩ := hh.file_some
    rw [← md5Str_eq_of_step hw hs hy hx]
    exact (hp f y c hy).1 ⟨key, hh⟩
  · rintro ⟨hlive, hn⟩
    obtain ⟨y, hy, hkey⟩ := file_before_of_latestNames hr hs hx hn
    exact (hp f y c hy).2 ⟨hlive, hkey ▸ hn⟩

theorem membership_declares (hr : TrackerRun h st) (hp : MembershipFollows h st) {req : CString}
    (hs : Step st (.request c req) st') (hreq : declaration req = some d)
    (hd : Declares c d cl cl' st st') :
    MembershipFollows ((st, .request c req) :: h) st' ↔ Steady h st (.request c req) := by
  have hw := wellFormed_of_run hr
  constructor
  · intro hp' cl₀ hcl₀ d₀ hd₀ f x hx
    obtain rfl := Option.some.inj (hd.before.symm.trans hcl₀)
    obtain rfl := Option.some.inj (hreq.symm.trans hd₀)
    obtain ⟨x', hx', hkey⟩ := hd.file_old hx
    have hpost := hp' f x' c hx'
    rw [latestNames_self hreq, hkey] at hpost
    constructor
    · intro hn
      obtain ⟨key, hh⟩ := (hp f x c hx).2 ⟨⟨cl, hd.before⟩, hn⟩
      exact (hpost.1 ⟨key, hd.holds_old hh⟩).2
    · intro hnamed hnew key hend hocc
      obtain ⟨k, hh⟩ := hpost.2 ⟨⟨cl', hd.after⟩, hnamed⟩
      rcases hd.holds.1 hh with hold | ⟨-, hk, -, hfree⟩
      · exact hnew ((hp f x c hx).1 ⟨k, hold⟩).2
      · rw [hd.endpoint, hend] at hk
        exact hfree (Option.some.inj hk ▸ hocc)
  · intro hok f x e hx
    have hframe := membership_frame (c := e) hr hp hs hx
    -- The declaring client and the others.
    by_cases hec : e = c
    · subst hec
      rw [latestNames_self hreq, and_iff_right ⟨cl', hd.after⟩]
      constructor
      · rintro ⟨key, hh⟩
        rcases hd.holds.1 hh with hold | ⟨-, -, hlist, -⟩
        · obtain ⟨y, hy⟩ := hold.file_some
          rw [← md5Str_eq_of_step hw hs hy hx]
          exact (hok cl hd.before d hreq f y hy).1 ((hp f y e hy).1 ⟨key, hold⟩).2
        · exact (hd.names hx).1 hlist
      · intro hnamed
        by_cases hn : LatestNames h e x.md5Str
        · obtain ⟨key, hh⟩ := hframe.2 ⟨⟨cl, hd.before⟩, hn⟩
          exact ⟨key, hd.holds_old hh⟩
        · have hlist : f ∈ cl'.files := (hd.names hx).2 hnamed
          obtain ⟨key, hkey⟩ := Option.ne_none_iff_exists'.1 (hd.keyed (List.ne_nil_of_mem hlist))
          refine ⟨key, hd.holds.2 (.inr ⟨rfl, hkey, hlist, fun hocc => ?_⟩)⟩
          obtain ⟨o, hh⟩ := hocc
          obtain ⟨y, hy⟩ := hh.file_some
          have hsame := md5Str_eq_of_step hw hs hy hx
          exact (hok cl hd.before d hreq f y hy).2 (hsame ▸ hnamed) (hsame ▸ hn) key
            (hd.endpoint ▸ hkey) ⟨o, hh⟩
    · rw [latestNames_other hec, hd.live, ← hframe]
      exact exists_congr fun _ => hd.holds_other hec

theorem membership_leaves (hr : TrackerRun h st) (hp : MembershipFollows h st)
    (hs : Step st (.disconnect c) st') (hl : Leaves c cl st st') :
    MembershipFollows ((st, .disconnect c) :: h) st' ↔ Steady h st (.disconnect c) := by
  have hw := wellFormed_of_run hr
  constructor
  · intro hp' cl₀ hcl₀ f key hh
    obtain rfl := Option.some.inj (hl.before.symm.trans hcl₀)
    obtain ⟨x, hx⟩ := hh.file_some
    obtain ⟨x', hx', -⟩ := hl.file_old hx
    by_contra hother
    have hkept : st'.Holds f key c := hl.holds.2 ⟨hh, fun hgone => hother hgone.2⟩
    obtain ⟨⟨cl₁, hcl₁⟩, -⟩ := (hp' f x' c hx').1 ⟨key, hkept⟩
    rw [hl.after] at hcl₁
    cases hcl₁
  · intro hok f x e hx
    have hframe := membership_frame (c := e) hr hp hs hx
    -- The client that leaves is in no list any more; the others keep their entries unless they share its key.
    by_cases hec : e = c
    · subst hec
      constructor
      · rintro ⟨key, hh⟩
        obtain ⟨hold, hkept⟩ := hl.holds.1 hh
        obtain ⟨y, hy⟩ := hold.file_some
        have hn := ((hp f y e hy).1 ⟨key, hold⟩).2
        exact absurd ⟨(mem_files_iff hr hl.before hy).2 hn, hok cl hl.before f key hold⟩ hkept
      · rintro ⟨⟨cle, hcle⟩, -⟩
        exact absurd rfl (hl.client_cases hcle).1
    · have hlive : (∃ cle, st'.client e = some cle) ↔ ∃ cle, st.client e = some cle := by
        rw [hl.others hec]
      rw [hlive]
      refine Iff.trans (exists_congr fun key => ?_) hframe
      rw [hl.holds]
      refine and_iff_left_of_imp fun hold => ?_
      rintro ⟨hlist, hkey⟩
      -- `c` is in this table, by its lists, and under the very key of the entry of `e`
      obtain ⟨y, hy⟩ := hold.file_some
      obtain ⟨k, hh⟩ := (hp f y c hy).2 ⟨⟨cl, hl.before⟩, (mem_files_iff hr hl.before hy).1 hlist⟩
      obtain rfl : key = k := Option.some.inj (hkey.symm.trans (hok cl hl.before f k hh))
      exact hec (hw.holds_unique hold hh)

theorem membership_step (hr : TrackerRun h st) (hp : MembershipFollows h st) (hs : Step st ev st') :
    MembershipFollows ((st, ev) :: h) st' ↔ Steady h st ev := by
  have hw := wellFormed_of_run hr
  cases hs.cases hw with
  | idle hq hidle =>
      subst hidle
      refine ⟨fun _ => steady_of_quiet hq, fun _ f x c hx => ?_⟩
      rw [latestNames_quiet hq]
      exact hp f x c hx
  | joins hq hj =>
      refine ⟨fun _ => steady_of_quiet hq, fun _ f x e hx => ?_⟩
      rw [latestNames_quiet hq]
      have hframe := membership_frame (c := e) hr hp hs hx
      by_cases hnew : e = st.clientHeap.fresh
      · subst hnew
        constructor
        · rintro ⟨key, hh⟩
          exact absurd (hj.holds.1 hh) hw.not_holds_fresh
        · rintro ⟨-, p, hp, -⟩
          rw [latest_unborn hr (Nat.le_refl _)] at hp
          cases hp
      · rw [hj.live_old hnew, ← hframe]
        exact exists_congr fun _ => hj.holds
  | declares hev hreq hd =>
      subst hev
      exact membership_declares hr hp hs hreq hd
  | leaves hev hl =>
      subst hev
      exact membership_leaves hr hp hs hl

/-- The tables follow the latest declarations all along a run exactly if all its steps are steady. -/
theorem membershipFollows_iff (hrun : TrackerRun h st) :
    Along MembershipFollows h st ↔ StepsMeet Steady h := by
  refine hrun.along_iff_stepsMeet ?_ membership_step
  intro f x c hx
  cases hx

theorem membershipFollows_iff_orderly : ∃ h st, TrackerRun h st ∧ h.length = 5 ∧
    Along MembershipFollows h st := by
  obtain ⟨h, st, hrun, hlen, hok⟩ :=
    exists_run_of_replay orderlySession (P := fun h _ => h.length = 5 ∧ StepsMeet Steady h)
      (by decide +kernel)
  exact ⟨h, st, hrun, hlen, (membershipFollows_iff hrun).2 hok⟩

/-- A file that an update no longer names keeps listing the client. -/
theorem membership_kept_after_drop : ∃ h st, TrackerRun h st ∧ StepsMeet AnnouncesFirst h ∧
    Along (fun _ s => DistinctEndpoints s) h st ∧ ¬ MembershipFollows h st := by
  obtain ⟨h, st, hrun, hfirst, hdist, x, hx, hh, hn⟩ :=
    exists_run_of_replay (droppedFileSession.take 3)
      (P := fun h st => StepsMeet AnnouncesFirst h ∧ Along (fun _ s => DistinctEndpoints s) h st ∧
        ∃ x ∈ st.file 0, st.Holds 0 (listenKey ⟨loopback, 4000⟩ 6881) 0 ∧ ¬ LatestNames h 0 x.md5Str)
      (by decide +kernel)
  exact ⟨h, st, hrun, hfirst, hdist, fun hp => hn ((hp 0 x 0 hx).1 ⟨_, hh⟩).2⟩

/-! ## No client disturbs another -/

/-- The client on whose behalf a step is taken. -/
def Event.actor : Event → Option Addr
  | .connect _ _ => none
  | .request c _ => some c
  | .disconnect c => some c

/-- The step takes no table entry from a connected client other than its actor. -/
def KeepsOthers (st : Tracker) (ev : Event) (st' : Tracker) : Prop :=
  ∀ c e, ev.actor = some c → e ≠ c → (∃ cl, st.client e = some cl) →
    ∀ f key, st.Holds f key e → st'.Holds f key e

/-- Every connected client is listed, under its endpoint, by the files its latest declaration names. -/
def ListsOwn (h : TrackerHistory) (st : Tracker) : Prop :=
  ∀ c cl key, st.client c = some cl → cl.listenAddrKey = some key →
    ∀ f x, st.file f = some x → LatestNames h c x.md5Str → st.Holds f key c

/-- The step that led here took no one else's entries, and no one is missing from a table. -/
def Undisturbed : TrackerHistory → Tracker → Prop
  | [], st => ListsOwn [] st
  | (st₀, ev) :: h, st => KeepsOthers st₀ ev st ∧ ListsOwn ((st₀, ev) :: h) st

/-- No table of a registered file that a declaration names has an entry of another client under the
endpoint of the declaring one. -/
def EndpointFree (_ : TrackerHistory) (st : Tracker) : Event → Prop
  | .request c req => ∀ cl, st.client c = some cl → ∀ d, declaration req = some d →
      ∀ f key e, st.Holds f key e → d.endpoint cl = some key →
        (∃ x ∈ st.file f, d.Names st x.md5Str) → e = c
  | _ => True

instance (h : TrackerHistory) (st : Tracker) : ∀ ev, Decidable (EndpointFree h st ev)
  | .connect _ _ => .isTrue trivial
  | .disconnect _ => .isTrue trivial
  | .request c req =>
      decidable_of_iff (∀ cl ∈ st.client c, ∀ d ∈ declaration req, ∀ t ∈ st.entries,
          d.endpoint cl = some t.2.1 → (∃ x ∈ st.file t.1, d.Names st x.md5Str) → t.2.2 = c) <| by
        refine forall₂_congr fun cl _ => forall₂_congr fun d _ => ?_
        exact (Tracker.forall_holds_iff (Q := fun f key e =>
          d.endpoint cl = some key → (∃ x ∈ st.file f, d.Names st x.md5Str) → e = c)).symm

theorem endpointFree_of_quiet (hq : ev.Quiet) : EndpointFree h st ev := by
  cases ev with
  | request c req =>
      intro cl _ d hd
      have hnone := hq.1 c
      simp [declaredBy, hd] at hnone
  | _ => trivial

/-- A step lists a client it leaves alone as long as it keeps the client's entries. -/
theorem listsOwn_frame (hr : TrackerRun h st) (hp : ListsOwn h st) (hs : Step st ev st') {e : Addr}
    {cle : Client} (he : st.client e = some cle) (hkey : cle.listenAddrKey = some key) {x : File}
    (hx : st'.file f = some x) (hn : LatestNames h e x.md5Str) : st.Holds f key e := by
  obtain ⟨y, hy, hsame⟩ := file_before_of_latestNames hr hs hx hn
  exact hp e cle key he hkey f y hy (hsame ▸ hn)

theorem undisturbed_declares (hr : TrackerRun h st) (hp : ListsOwn h st) {req : CString}
    (hs : Step st (.request c req) st') (hreq : declaration req = some d)
    (hd : Declares c d cl cl' st st') :
    Undisturbed ((st, .request c req) :: h) st' ↔ EndpointFree h st (.request c req) := by
  have hw := wellFormed_of_run hr
  constructor
  · rintro ⟨-, hp'⟩ cl₀ hcl₀ d₀ hd₀ f key e hh hend ⟨x, hx, hnamed⟩
    obtain rfl := Option.some.inj (hd.before.symm.trans hcl₀)
    obtain rfl := Option.some.inj (hreq.symm.trans hd₀)
    obtain ⟨x', hx', hsame⟩ := hd.file_old hx
    have hown : st'.Holds f key c := by
      refine hp' c cl' key hd.after (hd.endpoint.trans hend) f x' hx' ?_
      rw [latestNames_self hreq, hsame]
      exact hnamed
    exact (hw.step hs).holds_unique (hd.holds_old hh) hown
  · intro hok
    refine ⟨fun _ _ _ _ _ f key hh => hd.holds_old hh, ?_⟩
    intro e cle key he hkey f x hx hn
    by_cases hec : e = c
    · subst hec
      obtain rfl := Option.some.inj (hd.after.symm.trans he)
      rw [latestNames_self hreq] at hn
      refine hd.holds.2 ?_
      by_cases hocc : st.Occupied f key
      · obtain ⟨o, hh⟩ := hocc
        obtain ⟨y, hy⟩ := hh.file_some
        have hnamed : ∃ y ∈ st.file f, d.Names st y.md5Str :=
          ⟨y, hy, (md5Str_eq_of_step hw hs hy hx) ▸ hn⟩
        obtain rfl := hok cl hd.before d hreq f key o hh (hd.endpoint ▸ hkey) hnamed
        exact .inl hh
      · exact .inr ⟨rfl, hkey, (hd.names hx).2 hn, hocc⟩
    · rw [latestNames_other hec] at hn
      exact hd.holds_old (listsOwn_frame hr hp hs ((hd.others hec).symm.trans he) hkey hx hn)

/-- A client leaving takes out its own entries only, as long as every client is listed. -/
theorem undisturbed_leaves (hr : TrackerRun h st) (hp : ListsOwn h st)
    (hs : Step st (.disconnect c) st') (hl : Leaves c cl st st') :
    Undisturbed ((st, .disconnect c) :: h) st' := by
  have hw := wellFormed_of_run hr
  have hkept : ∀ {f key e}, e ≠ c → st.Holds f key e → st'.Holds f key e := by
    intro f key e hec hh
    refine hl.holds.2 ⟨hh, ?_⟩
    rintro ⟨hlist, hkey⟩
    obtain ⟨y, hy⟩ := hh.file_some
    have hown : st.Holds f key c :=
      hp c cl key hl.before hkey f y hy ((mem_files_iff hr hl.before hy).1 hlist)
    exact hec (hw.holds_unique hh hown)
  constructor
  · intro c' e hact hec _ f key hh
    obtain rfl : c = c' := Option.some.inj hact
    exact hkept hec hh
  · intro e cle key he hkey f x hx hn
    obtain ⟨hec, hold⟩ := hl.client_cases he
    exact hkept hec (listsOwn_frame hr hp hs hold hkey hx hn)

theorem Undisturbed.listsOwn (hp : Undisturbed h st) : ListsOwn h st := by
  cases h with
  | nil => exact hp
  | cons p h => exact hp.2

theorem undisturbed_step (hr : TrackerRun h st) (hp : Undisturbed h st) (hs : Step st ev st') :
    Undisturbed ((st, ev) :: h) st' ↔ EndpointFree h st ev := by
  have hlist := hp.listsOwn
  -- Only a declaration can meet the endpoint of another client.
  cases hs.cases (wellFormed_of_run hr) with
  | idle hq hidle =>
      subst hidle
      refine ⟨fun _ => endpointFree_of_quiet hq, fun _ => ⟨fun _ _ _ _ _ _ _ hh => hh, ?_⟩⟩
      intro e cle key he hkey f x hx hn
      exact hlist e cle key he hkey f x hx ((latestNames_quiet hq).1 hn)
  | joins hq hj =>
      refine ⟨fun _ => endpointFree_of_quiet hq,
        fun _ => ⟨fun _ _ _ _ _ _ _ hh => hj.holds.2 hh, ?_⟩⟩
      intro e cle key he hkey f x hx hn
      rcases hj.client_cases he with hold | ⟨-, -, hnone⟩
      · rw [latestNames_quiet hq] at hn
        exact hj.holds.2 (listsOwn_frame hr hlist hs hold hkey hx hn)
      · rw [hnone] at hkey
        cases hkey
  | declares hev hreq hd =>
      subst hev
      exact undisturbed_declares hr hlist hs hreq hd
  | leaves hev hl =>
      subst hev
      exact ⟨fun _ => trivial, fun _ => undisturbed_leaves hr hlist hs hl⟩

/-- Clients leave each other's entries alone all along a run exactly if no declaration names a
registered file in which another client has the declaring one's endpoint. -/
theorem undisturbed_iff (hrun : TrackerRun h st) :
    Along Undisturbed h st ↔ StepsMeet EndpointFree h := by
  refine hrun.along_iff_stepsMeet ?_ undisturbed_step
  intro c cl key hc
  cases hc

theorem undisturbed_iff_orderly : ∃ h st, TrackerRun h st ∧ h.length = 5 ∧
    Along Undisturbed h st := by
  obtain ⟨h, st, hrun, hlen, hok⟩ :=
    exists_run_of_replay orderlySession (P := fun h _ => h.length = 5 ∧ StepsMeet EndpointFree h)
      (by decide +kernel)
  exact ⟨h, st, hrun, hlen, (undisturbed_iff hrun).2 hok⟩

/-- Two clients share an endpoint: as one leaves, the file the other announced stops listing it. -/
theorem removed_by_another : ∃ h st st', TrackerRun ((st, .disconnect 1) :: h) st' ∧
    ¬ KeepsOthers st (.disconnect 1) st' ∧ ¬ ListsOwn ((st, .disconnect 1) :: h) st' := by
  obtain ⟨h, st', hrun, x, hx, hp⟩ :=
    exists_run_of_replay sharedEndpointSession
      (P := fun h st' => ∃ x ∈ st'.file 0, ∃ p ∈ h.head?, p.2 = .disconnect 1 ∧
        (∃ cl ∈ p.1.client 0, True) ∧
        p.1.Holds 0 (listenKey ⟨loopback, 4000⟩ 6881) 0 ∧
        (∃ cl ∈ st'.client 0, cl.listenAddrKey = some (listenKey ⟨loopback, 4000⟩ 6881)) ∧
        ¬ st'.Holds 0 (listenKey ⟨loopback, 4000⟩ 6881) 0 ∧ LatestNames h 0 x.md5Str)
      (by decide +kernel)
  obtain ⟨⟨st, ev⟩, hhead, rfl, ⟨cl, hcl, -⟩, hbefore, ⟨cl', hcl', hkey⟩, hafter, hn⟩ := hp
  obtain ⟨h, rfl⟩ : ∃ h₀, h = (st, .disconnect 1) :: h₀ := by
    cases h with
    | nil => cases hhead
    | cons p h => exact ⟨h, by rw [Option.some.inj hhead]⟩
  refine ⟨h, st, st', hrun, fun hk => ?_, fun hp => ?_⟩
  · exact hafter (hk 1 0 rfl (by decide) ⟨cl, hcl⟩ _ _ hbefore)
  · exact hafter (hp 0 cl' _ hcl' hkey 0 x hx hn)

end CTracker
end Raiezau
