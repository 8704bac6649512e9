import Raiezau.CTracker.Refusal

/-!
# ListenPort — the port a client is listed with

The digits of a `listen` clause go through `atoi` and an `uint16_t` into the endpoint key of the client, and
the reply to `getfile` takes the port from there, whatever key the client is filed under.
-/

namespace Raiezau
namespace CTracker

open Memory CUtil Text Machine Assoc

variable {st st' : Tracker} {h : TrackerHistory} {c e : Addr} {cl : Client} {ev : Event} {req v key : CString}

/-! ## What is announced -/

/-- The number in the `listen` clause of an `announce` that matches its pattern. -/
def listenNumber (req : CString) : Option Nat :=
  match dispatch req with
  | some (.announce, v) =>
      (regexec announceRegexp v).map fun pm => digitsValue (substr v (slot pm 1).so (slot pm 1).eo)
  | _ => none

def listenedBy (c : Addr) : Event → Option Nat
  | .request c' req => if c' = c then listenNumber req else none
  | _ => none

/-- The number in the latest `listen` clause of a client. -/
def lastListen (c : Addr) : TrackerHistory → Option Nat
  | [] => none
  | (_, ev) :: h => (listenedBy c ev).or (lastListen c h)

/-- The group of the clause has one to five digits, and a space follows. -/
theorem regexec_listen {pm : List RegMatch} (hre : regexec announceRegexp v = some pm) :
    ∃ front digits rest, v = front ++ (digits ++ ' ' :: rest) ∧ (slot pm 1).so = front.length ∧
      (slot pm 1).eo = front.length + digits.length ∧ digits ≠ [] ∧ (∀ ch ∈ digits, ch.isDigit = true) ∧
      digits.length ≤ 5 := by
  obtain ⟨front, rest, stop, gs, rfl, rfl, hparse⟩ := exists_parse_of_regexec hre
  obtain ⟨w, t, rfl, hw, hgroup⟩ := parse_lits hparse
  obtain ⟨digits, t', gs', rfl, ⟨hall, hlo, hhi⟩, rfl, hrest⟩ := hgroup
  obtain ⟨t'', rfl, -⟩ := (parse_char_caseless space_caseless).1 hrest
  have hlen : (front ++ w).length = front.length + "listen ".toList.length := by rw [List.length_append, hw]
  refine ⟨front ++ w, digits, t'', by simp, hlen.symm, ?_, ?_, hall, hhi 5 rfl⟩
  · rw [hlen]
    rfl
  · rintro rfl
    exact absurd hlo (by decide)

/-- `atoi` reads the number of the clause, and nothing behind it. -/
theorem atoi_listen {pm : List RegMatch} (hre : regexec announceRegexp v = some pm) :
    atoi (v.drop (slot pm 1).so) = (digitsValue (substr v (slot pm 1).so (slot pm 1).eo) : Int) := by
  obtain ⟨front, digits, rest, rfl, hso, heo, hne, hall, hlen⟩ := regexec_listen hre
  have hclause : substr (front ++ (digits ++ ' ' :: rest)) front.length (front.length + digits.length) = digits := by
    simp [substr]
  have hread : digitsValue (digits ++ ' ' :: rest) = digitsValue digits := by
    rw [digitsValue_eq hall]
    refine digitsValue_append hall fun ch hch => ?_
    obtain rfl : ' ' = ch := Option.some.inj hch
    rfl
  have hlt : digitsValue digits < 10 ^ 5 :=
    Nat.lt_of_lt_of_le (digitsValue_lt hall) (Nat.pow_le_pow_right (by decide) hlen)
  have hlong : min longMax (digitsValue digits : Int) = digitsValue digits := by
    unfold longMax
    omega
  obtain ⟨ch, t, rfl⟩ := List.exists_cons_of_ne_nil hne
  rw [hso, heo, hclause, List.drop_left, atoi, List.cons_append, atol_of_isDigit (hall ch List.mem_cons_self),
    ← List.cons_append, hread, hlong]
  exact toInt32_of_lt (by omega)

/-- The port of a declaration is the number of its `listen` clause, cut to sixteen bits. -/
theorem declaration_bind_port (req : CString) :
    (declaration req).bind Declaration.port = (listenNumber req).map fun n => n % 2 ^ 16 := by
  rw [declaration_dispatch, listenNumber]
  rcases dispatch req with _ | ⟨handler, v⟩
  · rfl
  cases handler with
  | announce =>
      cases hre : regexec announceRegexp v with
      | none => simp only [hre, Option.map_none, Option.bind_none]
      | some pm =>
          simp only [hre, Option.map_some, Option.bind_some, ← toUInt16_natCast, ← atoi_listen hre]
          rfl
  | update =>
      simp only [Option.bind_map]
      cases regexec updateRegexp v <;> rfl
  | look => rfl
  | getfile => rfl

theorem declaration_port {d : Declaration} (hd : declaration req = some d) :
    d.port = (listenNumber req).map fun n => n % 2 ^ 16 := by
  rw [← declaration_bind_port, hd, Option.bind_some]

theorem listenNumber_of_declaration_none (hd : declaration req = none) : listenNumber req = none := by
  have hport := declaration_bind_port req
  rw [hd] at hport
  exact Option.map_eq_none_iff.1 hport.symm

/-! ## What is listed -/

/-- A reply to `getfile`, with the clients it lists and the text it has for each. -/
def peersReply (key : CString) (peers : List (Addr × CString)) : CString :=
  "peers ".toList ++ key ++ " [".toList ++ (peers.flatMap fun p => ' ' :: p.2) ++ "]\n".toList

/-- The clients in the table of a file, except the one that asks. -/
def listedClients (st : Tracker) (current : Addr) (key : CString) : List Addr :=
  match (fileGetByKey st key).bind st.file with
  | none => []
  | some x => (x.clients.map Prod.snd).filter fun c => c ≠ current

/-- Every listed client is there, and its text is its endpoint key. -/
theorem peerStringList_peers {cli : HashTable Addr} {output s : CString}
    (hs : cli.foldlM (fun output e =>
      if e.2 = c then pure output
      else do
        let cl ← st.client e.2
        let key ← cl.listenAddrKey
        pure (output ++ ' ' :: key)) output = some s) :
    ∃ peers : List (Addr × CString), s = output ++ (peers.flatMap fun p => ' ' :: p.2) ∧
      peers.map Prod.fst = ((cli.map Prod.snd).filter fun e => e ≠ c) ∧
      ∀ p ∈ peers, ∃ cl, st.client p.1 = some cl ∧ cl.listenAddrKey = some p.2 := by
  -- The client that asks is passed over.
  induction cli generalizing output with
  | nil =>
      obtain rfl := Option.some.inj hs
      exact ⟨[], by simp, rfl, by simp⟩
  | cons entry cli ih =>
      rw [List.foldlM_cons, Option.bind_eq_bind] at hs
      obtain ⟨output₁, hfirst, hrest⟩ := Option.bind_eq_some_iff.1 hs
      obtain ⟨peers, rfl, hmap, hkeys⟩ := ih hrest
      split at hfirst
      · next hself =>
          obtain rfl := Option.some.inj hfirst
          exact ⟨peers, rfl, by simp [hmap, hself], hkeys⟩
      · next hother =>
          simp only [Option.bind_eq_bind, Option.bind_eq_some_iff] at hfirst
          obtain ⟨cl, hcl, key, hkey, hpure⟩ := hfirst
          obtain rfl := Option.some.inj hpure
          refine ⟨(entry.2, key) :: peers, by simp, by simp [hmap, hother], ?_⟩
          rw [List.forall_mem_cons]
          exact ⟨⟨cl, hcl, hkey⟩, hkeys⟩

theorem protGetfile_peers {o : Outcome} (hget : protGetfile st c v = some o) (hret : o.ret = 0) :
    ∃ peers, o.out = [peersReply (strTrimProtGetfile v) peers] ∧
      peers.map Prod.fst = listedClients st c (strTrimProtGetfile v) ∧
      ∀ p ∈ peers, ∃ cl, st.client p.1 = some cl ∧ cl.listenAddrKey = some p.2 := by
  unfold protGetfile at hget
  simp only at hget
  split at hget
  · obtain rfl := Option.some.inj hget
    cases hret
  · unfold listedClients
    cases hkey : fileGetByKey st (strTrimProtGetfile v) with
    | none =>
        rw [hkey] at hget
        obtain rfl := Option.some.inj hget
        exact ⟨[], rfl, rfl, by simp⟩
    | some f =>
        simp only [hkey, Option.bind_eq_bind, Option.bind_eq_some_iff] at hget
        obtain ⟨x, hx, s, hs, hpure⟩ := hget
        obtain rfl := Option.some.inj hpure
        obtain ⟨peers, rfl, hmap, hkeys⟩ := peerStringList_peers hs
        refine ⟨peers, rfl, ?_, hkeys⟩
        simp only [Option.bind_some, hx, hmap]

/-! ## Runs -/

/-- Every reply to `getfile` has, for each client it lists, the number of its latest `listen` clause as port. -/
def ShowsPorts (h : TrackerHistory) (st : Tracker) : Prop :=
  ∀ current v o, protGetfile st current v = some o → o.ret = 0 →
    ∃ peers, o.out = [peersReply (strTrimProtGetfile v) peers] ∧
      peers.map Prod.fst = listedClients st current (strTrimProtGetfile v) ∧
      ∀ p ∈ peers, ∀ n ∈ lastListen p.1 h, ∃ addr, p.2 = listenKey addr n

def IsTcpPort (n : Nat) : Prop := 1 ≤ n ∧ n ≤ 65535

instance (n : Nat) : Decidable (IsTcpPort n) := inferInstanceAs (Decidable (_ ∧ _))

/-- A `listen` clause with a number that is no TCP port is answered `error`. -/
def RefusesBadPort (_ : TrackerHistory) (st : Tracker) : Event → Prop
  | .request c req => ∀ n ∈ listenNumber req, ¬ IsTcpPort n →
      ∃ st', handleRequest st c req = some (st', [errorReply])
  | _ => True

/-- The number of a `listen` clause is a TCP port. -/
def ListensOnPort (_ : TrackerHistory) (_ : Tracker) : Event → Prop
  | .request _ req => ∀ n ∈ listenNumber req, IsTcpPort n
  | _ => True

instance (h : TrackerHistory) (st : Tracker) : ∀ ev, Decidable (ListensOnPort h st ev)
  | .request _ req => inferInstanceAs (Decidable (∀ n ∈ listenNumber req, IsTcpPort n))
  | .connect _ _ => .isTrue trivial
  | .disconnect _ => .isTrue trivial

/-- The endpoint key of a client has the number of its latest `listen` clause as port. -/
def KeysCurrent (h : TrackerHistory) (st : Tracker) : Prop :=
  ∀ c cl key, st.client c = some cl → cl.listenAddrKey = some key → ∀ n ∈ lastListen c h, ∃ addr, key = listenKey addr n

theorem lastListen_cons : lastListen c ((st, ev) :: h) = (listenedBy c ev).or (lastListen c h) := rfl

theorem lastListen_quiet (hq : ev.Quiet) : lastListen c ((st, ev) :: h) = lastListen c h := by
  have hnone : listenedBy c ev = none := by
    cases ev with
    | request c' req =>
        have hd := hq.1 c
        rw [declaredBy] at hd
        rw [listenedBy]
        split at hd
        · next hcc =>
            rw [if_pos hcc]
            exact listenNumber_of_declaration_none hd
        · next hcc => rw [if_neg hcc]
    | connect socket addr => rfl
    | disconnect c' => rfl
  rw [lastListen_cons, hnone, Option.none_or]

theorem keysCurrent_init : KeysCurrent [] Tracker.init := by
  intro c cl key hc
  cases hc

theorem keysCurrent_step (hr : TrackerRun h st) (hkeys : KeysCurrent h st) (hok : ListensOnPort h st ev)
    (hs : Step st ev st') : KeysCurrent ((st, ev) :: h) st' := by
  intro e cle key he hkey n hn
  -- Only an announce of the client changes its key.
  cases hs.cases (wellFormed_of_run hr) with
  | idle hq hidle =>
      rw [lastListen_quiet hq] at hn
      exact hkeys e cle key (hidle ▸ he) hkey n hn
  | joins hq hj =>
      rw [lastListen_quiet hq] at hn
      rcases hj.client_cases he with hold | ⟨-, -, hnone⟩
      · exact hkeys e cle key hold hkey n hn
      · rw [hnone] at hkey
        cases hkey
  | @declares c req d cl cl' hev hreq hd =>
      subst hev
      rw [lastListen_cons, listenedBy] at hn
      by_cases hec : e = c
      · subst hec
        obtain rfl := Option.some.inj (hd.after.symm.trans he)
        rw [if_pos rfl] at hn
        rw [hd.endpoint, Declaration.endpoint, declaration_port hreq] at hkey
        cases hlisten : listenNumber req with
        | none =>
            rw [hlisten] at hkey hn
            exact hkeys e cl key hd.before hkey n hn
        | some m =>
            -- a TCP port goes through the sixteen bits as it is
            have hport : IsTcpPort m := hok m hlisten
            rw [hlisten] at hkey hn
            obtain rfl : m = n := Option.some.inj hn
            have hsame : m % 2 ^ 16 = m := Nat.mod_eq_of_lt (by have := hport.2; omega)
            rw [Option.map_some, hsame] at hkey
            exact ⟨cl.addr, (Option.some.inj hkey).symm⟩
      · rw [if_neg (Ne.symm hec), Option.none_or] at hn
        exact hkeys e cle key ((hd.others hec).symm.trans he) hkey n hn
  | leaves hev hl =>
      subst hev
      exact hkeys e cle key (hl.client_cases he).2 hkey n hn

theorem showsPorts_of_keysCurrent (hkeys : KeysCurrent h st) : ShowsPorts h st := by
  intro current v o hget hret
  obtain ⟨peers, hout, hmap, hall⟩ := protGetfile_peers hget hret
  refine ⟨peers, hout, hmap, fun p hp n hn => ?_⟩
  obtain ⟨cl, hcl, hkey⟩ := hall p hp
  exact hkeys p.1 cl p.2 hcl hkey n hn

/-- An `announce` that matches its pattern and is carried out is answered `ok`. -/
theorem handleRequest_listen {n : Nat} {out : List CString} (hn : listenNumber req = some n)
    (hreq : handleRequest st c req = some (st', out)) : out = [okReply] := by
  rw [handleRequest_dispatch] at hreq
  unfold listenNumber at hn
  split at hn
  · next v hdisp =>
      obtain ⟨pm, hre, -⟩ := Option.map_eq_some_iff.1 hn
      simp only [hdisp, Handler.call, protAnnounce, hre] at hreq
      rw [Option.bind_eq_bind] at hreq
      obtain ⟨r, -, hpair⟩ := Option.map_eq_some_iff.1 ((reply_ok _).symm.trans hreq)
      exact (Prod.mk.inj hpair).2.symm
  · cases hn

theorem listensOnPort_of_step (hs : Step st ev st') (href : RefusesBadPort h st ev) : ListensOnPort h st ev := by
  cases ev with
  | request c req =>
      intro n hn
      by_contra hbad
      obtain ⟨st₁, herr⟩ := href n hn hbad
      have hok := handleRequest_listen hn herr
      revert hok
      decide
  | connect socket addr => trivial
  | disconnect c => trivial

theorem listensOnPort_of_refuses (hrun : TrackerRun h st) :
    StepsMeet RefusesBadPort h → StepsMeet ListensOnPort h := by
  refine hrun.invariant_history (fun _ => trivial) ?_
  intro h st ev st' _ ih hs hmeet
  exact ⟨listensOnPort_of_step hs hmeet.1, ih hmeet.2⟩

/-- Along a run every reply to `getfile` shows the ports that were announced last, and no other number is accepted for
a port, if and only if every `listen` clause gives a TCP port. -/
theorem portsKept_iff (hrun : TrackerRun h st) :
    (Along ShowsPorts h st ∧ StepsMeet RefusesBadPort h) ↔ StepsMeet ListensOnPort h := by
  constructor
  · exact fun hkept => listensOnPort_of_refuses hrun hkept.2
  · intro hok
    refine ⟨?_, hok.mono fun {h st ev} hport => ?_⟩
    · exact hrun.along_of_stepsMeet (I := fun h st => TrackerRun h st ∧ KeysCurrent h st) ⟨.start, keysCurrent_init⟩
        (fun ⟨hr, hkeys⟩ hport hs => ⟨hr.next hs, keysCurrent_step hr hkeys hport hs⟩)
        (fun ⟨_, hkeys⟩ => showsPorts_of_keysCurrent hkeys) hok
    · cases ev with
      | request c req => exact fun n hn hbad => absurd (hport n hn) hbad
      | connect socket addr => trivial
      | disconnect c => trivial

/-- `announce` twice, with two ports. -/
def announceTwice : List Event :=
  [.connect 7 ⟨loopback, 4000⟩, .request 0 (announceFilm "06881".toList), .request 0 (announceFilm "6882".toList)]

theorem portsKept_iff_announceTwice : ∃ h st, TrackerRun h st ∧ lastListen 0 h = some 6882 ∧
    Along ShowsPorts h st ∧ StepsMeet RefusesBadPort h := by
  obtain ⟨h, st, hrun, hlast, hok⟩ :=
    exists_run_of_replay announceTwice (P := fun h _ => lastListen 0 h = some 6882 ∧ StepsMeet ListensOnPort h)
      (by decide +kernel)
  exact ⟨h, st, hrun, hlast, (portsKept_iff hrun).2 hok⟩

/-- The number 65537 is accepted, and the port shown is 1. -/
theorem announce_wraps_port : ∃ h st, TrackerRun h st ∧
    (∃ o ∈ protGetfile st 1 filmKey, ∃ addr, o.out = [peersReply filmKey [(0, listenKey addr 1)]]) ∧
    lastListen 0 h = some 65537 ∧ ¬ (Along ShowsPorts h st ∧ StepsMeet RefusesBadPort h) := by
  obtain ⟨h, st, hrun, ⟨o, hget, hout⟩, hlast, hbad⟩ :=
    exists_run_of_replay
      [.connect 7 ⟨loopback, 4000⟩, .connect 8 ⟨loopback, 4001⟩, .request 0 (announceFilm "65537".toList)]
      (P := fun h st =>
        (∃ o ∈ protGetfile st 1 filmKey, o.out = [peersReply filmKey [(0, listenKey ⟨loopback, 4000⟩ 1)]]) ∧
        lastListen 0 h = some 65537 ∧ ¬ StepsMeet ListensOnPort h)
      (by decide +kernel)
  exact ⟨h, st, hrun, ⟨o, hget, _, hout⟩, hlast, fun hkept => hbad (listensOnPort_of_refuses hrun hkept.2)⟩

end CTracker
end Raiezau
