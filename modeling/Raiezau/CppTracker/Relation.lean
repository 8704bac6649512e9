import Raiezau.CppTracker.Clauses

/-!
# Relation — files and peers pointing at each other

A file has a set of peers, and a peer two maps of files.  `Agrees` says that the two sides match and that
the maps hold what the peer's latest request named.  An announce restores it, whatever the order of its
clauses (`Mid` is what holds between two of them).  An update hands both lists to `parseAnnounceLeech`,
nothing takes a peer out of a set, and a peer that is deleted stays in all of them: `Faithful` tells the
updates and disconnections that do no harm.
-/

namespace Raiezau
namespace CppTracker

open Memory CUtil Assoc Machine

variable {st st' st₀ st₁ : Tracker} {h : TrackerHistory} {ev : Event} {p e f : Addr} {q q' : Peer}
  {k text : CString} {done rest cls : List Clause}

/-! ## The clauses of a request -/

/-- The clauses of an announce or update of `p` that is answered `ok`. -/
def accepted (st : Tracker) (p : Addr) : Event → Option (List Clause)
  | .request e line =>
      if e = p ∧ (handleLine st p line).map Prod.snd = some (some okReply) then
        (declaredOf line).map Prod.snd
      else none
  | _ => none

/-- The clauses of the latest successful announce or update of a peer, and the state it was made in. -/
def latest (p : Addr) : TrackerHistory → Option (Tracker × List Clause)
  | [] => none
  | (st, ev) :: h =>
      match accepted st p ev with
      | some cls => some (st, cls)
      | none => latest p h

/-- The request is an announce or an update, and is answered `ok`. -/
def AnsweredOk (_ : TrackerHistory) (st : Tracker) : Event → Prop
  | .request p line => accepted st p (.request p line) ≠ none
  | _ => True

instance (h : TrackerHistory) (st : Tracker) : ∀ ev, Decidable (AnsweredOk h st ev)
  | .connect _ => .isTrue trivial
  | .request p line => inferInstanceAs (Decidable (accepted st p (.request p line) ≠ none))
  | .disconnect _ => .isTrue trivial

/-! ## What the clauses name -/

/-- The files of a map. -/
def FileMap.files (m : FileMap) : List Addr := m.keys.filterMap m.get

theorem FileMap.mem_files {m : FileMap} : f ∈ m.files ↔ m.Holds f := by
  unfold FileMap.files
  rw [List.mem_filterMap]
  constructor
  · rintro ⟨k, -, hk⟩
    exact ⟨k, hk⟩
  · rintro ⟨k, hk⟩
    exact ⟨k, Table.mem_keys_of_mem (Table.mem_of_lookup hk), hk⟩

instance (m : FileMap) (f : Addr) : Decidable (m.Holds f) :=
  decidable_of_iff _ FileMap.mem_files

instance (q : Peer) (f : Addr) : Decidable (q.Records f) :=
  inferInstanceAs (Decidable (_ ∨ _))

/-- The files a peer records. -/
def Peer.files (q : Peer) : List Addr := q.seed.files ++ q.leech.files

theorem Peer.mem_files : f ∈ q.files ↔ q.Records f := by
  rw [Peer.files, List.mem_append, FileMap.mem_files, FileMap.mem_files]
  rfl

/-- The seed map holds exactly the files that the entries of a clause describe. -/
def SeedNamed (st : Tracker) (q : Peer) (text : CString) : Prop :=
  (∀ f ∈ q.seed.files, ∃ e ∈ entries (tokens text), ∃ x ∈ st.file f, x.Matches e) ∧
    ∀ e ∈ entries (tokens text), ∃ f ∈ q.seed.files, ∃ x ∈ st.file f, x.Matches e

instance (st : Tracker) (q : Peer) (text : CString) : Decidable (SeedNamed st q text) :=
  inferInstanceAs (Decidable (_ ∧ _))

/-- A hash is registered once the clauses `done` of a request made in `st₀` have been read. -/
def KnownAfter (st₀ : Tracker) (done : List Clause) (k : CString) : Prop :=
  st₀.fileMap.get k ≠ none ∨ ∃ text, .seed text ∈ done ∧ ∃ e ∈ entries (tokens text), e.hash = k

/-- The leech map holds exactly the files that a clause names: those registered, when the clause was
read, under its words. -/
def LeechNamed (st₀ : Tracker) (done : List Clause) (st : Tracker) (q : Peer) (text : CString) : Prop :=
  ∀ f, q.leech.Holds f ↔ ∃ k ∈ tokens text, st.fileMap.get k = some f ∧ KnownAfter st₀ done k

/-- The maps hold the files that the clauses of a request made in `st₀` name. -/
def HoldsNamed (st₀ : Tracker) (cls : List Clause) (st : Tracker) (q : Peer) : Prop :=
  (∀ text, .seed text ∈ cls → SeedNamed st q text) ∧
    ∀ done text rest, cls = done ++ .leech text :: rest → LeechNamed st₀ done st q text

def RecordsLatest (h : TrackerHistory) (st : Tracker) (p : Addr) (q : Peer) : Prop :=
  match latest p h with
  | none => ∀ f, ¬ q.Records f
  | some (st₀, cls) => HoldsNamed st₀ cls st q

/-- A peer is in the peer set of a file exactly if it is connected and records the file, and what the
peers record is what their latest requests name. -/
def Agrees (h : TrackerHistory) (st : Tracker) : Prop :=
  (∀ f x p, st.file f = some x → (p ∈ x.peers ↔ ∃ q, st.peer p = some q ∧ q.Records f)) ∧
    ∀ p q, st.peer p = some q → RecordsLatest h st p q

/-! ## Requests that do no harm -/

/-- What an update of a peer with record `q` has to name, for each order of its two clauses. -/
def UpdateFaithful (st : Tracker) (q : Peer) : List Clause → Prop
  | [.seed seed, .leech leech] => SeedNamed st q seed ∧
      ∀ f ∈ q.leech.files ++ registered st seed, q.seed.Holds f ∨ f ∈ registered st leech
  | [.leech leech, .seed seed] => SeedNamed st q seed ∧
      (∀ f ∈ registered st seed, f ∈ registered st leech) ∧
      (∀ f ∈ registered st leech, f ∈ registered st seed) ∧
      ∀ f ∈ q.leech.files, q.seed.Holds f ∨ f ∈ registered st leech
  | _ => True

instance (st : Tracker) (q : Peer) : ∀ cls, Decidable (UpdateFaithful st q cls)
  | [.seed _, .leech _] => inferInstanceAs (Decidable (_ ∧ _))
  | [.leech _, .seed _] => inferInstanceAs (Decidable (_ ∧ _ ∧ _ ∧ _))
  | [] | [.seed _, .seed _] | [.seed _, .listen _] | [.seed _, .unexpected _] | [.leech _, .leech _]
  | [.leech _, .listen _] | [.leech _, .unexpected _] | [.listen _, _] | [.unexpected _, _] => .isTrue trivial
  | [c] => .isTrue (by cases c <;> trivial)
  | c :: d :: _ :: _ => .isTrue (by cases c <;> cases d <;> trivial)

instance {P : CString → Prop} [DecidablePred P] : ∀ c : Clause, Decidable (∀ text, c = .seed text → P text)
  | .seed text => decidable_of_iff (P text) ⟨fun h _ heq => Clause.seed.inj heq ▸ h, fun h => h text rfl⟩
  | .listen _ | .leech _ | .unexpected _ => .isTrue fun _ heq => nomatch heq

/-- A peer that disconnects records nothing; the entries of an announce are unambiguous; an update names
again what is recorded. -/
def Faithful (_ : TrackerHistory) (st : Tracker) : Event → Prop
  | .connect _ => True
  | .disconnect p => ∀ q ∈ st.peer p, q.files = []
  | .request p line => ∀ q ∈ st.peer p, ∀ d ∈ declaredOf line,
      if d.1 then ∀ c ∈ d.2, ∀ text, c = .seed text → Unambiguous st (entries (tokens text))
      else UpdateFaithful st q d.2

instance (h : TrackerHistory) (st : Tracker) : ∀ ev, Decidable (Faithful h st ev)
  | .connect _ => .isTrue trivial
  | .disconnect p => inferInstanceAs (Decidable (∀ q ∈ st.peer p, q.files = []))
  | .request p line => inferInstanceAs (Decidable (∀ q ∈ st.peer p, ∀ d ∈ declaredOf line,
      if d.1 then ∀ c ∈ d.2, ∀ text, c = .seed text → Unambiguous st (entries (tokens text))
      else UpdateFaithful st q d.2))

/-! ## What is named stays named -/

theorem FileMap.not_holds_nil : ¬ FileMap.Holds [] f := by
  rintro ⟨k, hk⟩
  cases hk

theorem KnownAfter.append (h : KnownAfter st₀ done k) (rest : List Clause) :
    KnownAfter st₀ (done ++ rest) k := by
  rcases h with h | ⟨text, hmem, he⟩
  · exact .inl h
  · exact .inr ⟨text, List.mem_append_left _ hmem, he⟩

theorem SeedNamed.mono {l : List Addr} (henr : Enrolled p l st st') (h : SeedNamed st q text) :
    SeedNamed st' q text := by
  have hkeep : ∀ {f e}, (∃ x ∈ st.file f, x.Matches e) → ∃ x ∈ st'.file f, x.Matches e := by
    rintro f e ⟨x, hx, hm⟩
    obtain ⟨ps, hps⟩ := henr.old hx
    exact ⟨_, hps, hm⟩
  refine ⟨fun f hf => ?_, fun e he => ?_⟩
  · obtain ⟨e, he, hx⟩ := h.1 f hf
    exact ⟨e, he, hkeep hx⟩
  · obtain ⟨f, hf, hx⟩ := h.2 e he
    exact ⟨f, hf, hkeep hx⟩

theorem LeechNamed.mono {l : List Addr} (henr : Enrolled p l st st')
    (hknown : ∀ {k}, KnownAfter st₀ done k → st.fileMap.get k ≠ none)
    (h : LeechNamed st₀ done st q text) : LeechNamed st₀ done st' q text := by
  intro f
  rw [h f]
  constructor
  · rintro ⟨k, hk, hget, hkn⟩
    exact ⟨k, hk, henr.lookup hget, hkn⟩
  · rintro ⟨k, hk, hget, hkn⟩
    obtain ⟨g, hg⟩ := Option.ne_none_iff_exists'.1 (hknown hkn)
    obtain rfl := Option.some.inj ((henr.lookup hg).symm.trans hget)
    exact ⟨k, hk, hg, hkn⟩

theorem HoldsNamed.mono {l : List Addr} (henr : Enrolled p l st st')
    (hknown : ∀ {k}, KnownAfter st₀ cls k → st.fileMap.get k ≠ none) (h : HoldsNamed st₀ cls st q) :
    HoldsNamed st₀ cls st' q := by
  refine ⟨fun text ht => (h.1 text ht).mono henr, ?_⟩
  rintro done text rest rfl
  exact (h.2 done text rest rfl).mono henr fun hk => hknown (hk.append _)

/-- One more clause. -/
theorem HoldsNamed.snoc {c : Clause} (h : HoldsNamed st₀ done st q)
    (hseed : ∀ text, c = .seed text → SeedNamed st q text)
    (hleech : ∀ text, c = .leech text → LeechNamed st₀ done st q text) :
    HoldsNamed st₀ (done ++ [c]) st q := by
  constructor
  · intro text ht
    rcases List.mem_append.1 ht with ht | ht
    · exact h.1 text ht
    · exact hseed text (List.mem_singleton.1 ht).symm
  · intro done' text rest heq
    -- With nothing after it the clause is the new one, else it is an old one.
    rcases List.eq_nil_or_concat rest with rfl | ⟨rest', c', rfl⟩
    · obtain ⟨rfl, hc⟩ := List.append_inj' heq rfl
      exact hleech text (List.cons.inj hc).1
    · have heq' : done ++ [c] = (done' ++ .leech text :: rest') ++ [c'] := by simpa using heq
      obtain ⟨rfl, -⟩ := List.append_inj' heq' rfl
      exact h.2 done' text rest' rfl

/-! ## An announce -/

/-- What holds between two clauses of an announce made in `st₀`: `p` has entered the files of `l`, which
are those it records. -/
structure Between (st₀ : Tracker) (p : Addr) (done : List Clause) (l : List Addr) (q : Peer)
    (st : Tracker) : Prop extends Enrolled p l st₀ st where
  peer : st.peer p = some q
  records : ∀ {f}, f ∈ l ↔ q.Records f
  seedUnread : (∀ text, .seed text ∉ done) → ∀ {f}, ¬ q.seed.Holds f
  leechUnread : (∀ text, .leech text ∉ done) → ∀ {f}, ¬ q.leech.Holds f
  named : HoldsNamed st₀ done st q
  known : ∀ {k}, st.fileMap.get k ≠ none ↔ KnownAfter st₀ done k

theorem Between.start (hreg : Registry st) (hq : st.peer p = some q) (hnone : ∀ f, ¬ q.Records f) :
    Between st p [] [] q st where
  toEnrolled := Enrolled.refl hreg p
  peer := hq
  records := by
    intro f
    simp [hnone f]
  seedUnread := fun _ {f} hf => hnone f (.inl hf)
  leechUnread := fun _ {f} hf => hnone f (.inr hf)
  named := by
    refine ⟨fun _ h => absurd h List.not_mem_nil, fun done text rest h => ?_⟩
    simp at h
  known := by simp [KnownAfter]

/-- As long as no seed clause has been read, the registry is that of the start. -/
theorem Between.unambiguous {l : List Addr} {es : List Entry} (h : Between st₀ p done l q st)
    (hreg : Registry st₀) (hnew : ∀ text, .seed text ∉ done) (hun : Unambiguous st₀ es) :
    Unambiguous st es := by
  refine hun.imp fun {e₁ e₂} hpair hh => ?_
  obtain ⟨rfl, hold⟩ := hpair hh
  refine ⟨rfl, fun g hg x hx => ?_⟩
  have hknown : KnownAfter st₀ done e₁.hash := h.known.1 (by rw [hg]; simp)
  rcases hknown with hne | ⟨text, hmem, -⟩
  · obtain ⟨g₀, hg₀⟩ := Option.ne_none_iff_exists'.1 hne
    obtain rfl := Option.some.inj ((h.lookup hg₀).symm.trans hg)
    obtain ⟨x₀, hx₀, -⟩ := hreg hg₀
    exact (h.matches hx₀ hx).2 (hold g₀ hg₀ x₀ hx₀)
  · exact absurd hmem (hnew text)

theorem Between.listen {l : List Addr} {argument : CString} (h : Between st₀ p done l q st)
    (hc : announceClause p st (.listen argument) = some (st', .ok ())) :
    ∃ l' q', Between st₀ p (done ++ [.listen argument]) l' q' st' := by
  rw [announceClause] at hc
  split at hc
  · next port hport =>
      obtain ⟨rfl, -⟩ := Prod.mk.inj (Option.some.inj hc)
      have henr := enrolled_modifyPeer h.registry p fun q => { q with listeningPort := port }
      refine ⟨l ++ [], { q with listeningPort := port }, ⟨h.toEnrolled.trans henr, ?_, ?_, ?_, ?_, ?_, ?_⟩⟩
      · exact peer_modifyPeer_self h.peer
      · intro f
        rw [List.append_nil]
        exact h.records
      · exact fun hnew => h.seedUnread fun text ht => hnew text (List.mem_append_left _ ht)
      · exact fun hnew => h.leechUnread fun text ht => hnew text (List.mem_append_left _ ht)
      · have hnamed : HoldsNamed st₀ done _ q := h.named.mono henr h.known.2
        exact HoldsNamed.snoc hnamed (fun _ hc => by cases hc) (fun _ hc => by cases hc)
      · intro k
        calc
          st.fileMap.get k ≠ none ↔ KnownAfter st₀ done k := h.known
          _ ↔ KnownAfter st₀ (done ++ [.listen argument]) k := by simp [KnownAfter]
  · cases (Prod.mk.inj (Option.some.inj hc)).2

/-- An unambiguous seed clause leaves a map of exactly its files. -/
theorem Seeded.named {l : List Addr} {m : FileMap}
    (h : Seeded p { q with seed := [] } (entries (tokens text)) l m st st')
    (hun : Unambiguous st (entries (tokens text))) :
    (∀ {f}, m.Holds f ↔ f ∈ l) ∧ SeedNamed st' { q with seed := m } text := by
  have hholds : ∀ {f}, m.Holds f ↔ f ∈ l := by
    intro f
    constructor
    · intro hf
      rcases h.from_l hf with hf | hf
      · exact absurd hf FileMap.not_holds_nil
      · exact hf
    · have hset : Settled st [] (entries (tokens text)) := fun e _ g hg => by cases hg
      exact h.recorded hset hun f
  refine ⟨hholds, fun f hf => ?_, fun e he => ?_⟩
  · exact exists_of_mem_left h.files (hholds.1 (FileMap.mem_files.1 hf))
  · obtain ⟨f, hf, hx⟩ := exists_of_mem_left h.files.flip he
    exact ⟨f, FileMap.mem_files.2 (hholds.2 hf), hx⟩

theorem Between.seed {l : List Addr} (h : Between st₀ p done l q st) (hreg : Registry st₀)
    (hnew : ∀ text, .seed text ∉ done) (hun : Unambiguous st₀ (entries (tokens text)))
    (hc : announceClause p st (.seed text) = some (st', .ok ())) :
    ∃ l' q', Between st₀ p (done ++ [.seed text]) l' q' st' := by
  obtain ⟨l₂, m, hs⟩ := parseAnnounceSeed_ok h.registry h.peer hc
  obtain ⟨hholds, hnamed⟩ := hs.named (h.unambiguous hreg hnew hun)
  refine ⟨l ++ l₂, { q with seed := m }, ⟨h.toEnrolled.trans hs.toEnrolled, hs.peer, ?_, ?_, ?_, ?_, ?_⟩⟩
  · intro f
    -- what `p` recorded before it leeches, as its seed map was empty
    have hleech : f ∈ l ↔ q.leech.Holds f := by
      rw [h.records]
      exact or_iff_right (h.seedUnread hnew)
    calc
      f ∈ l ++ l₂ ↔ f ∈ l ∨ f ∈ l₂ := List.mem_append
      _ ↔ q.leech.Holds f ∨ m.Holds f := by rw [hleech, hholds]
      _ ↔ m.Holds f ∨ q.leech.Holds f := or_comm
  · exact fun hunread => absurd (List.mem_append_right _ List.mem_cons_self) (hunread text)
  · exact fun hunread => h.leechUnread fun text ht => hunread text (List.mem_append_left _ ht)
  · have hkept : HoldsNamed st₀ done st' { q with seed := m } :=
      ⟨fun text' ht => absurd ht (hnew text'), (h.named.mono hs.toEnrolled h.known.2).2⟩
    refine hkept.snoc (fun text' heq => ?_) fun _ heq => by cases heq
    obtain rfl := Clause.seed.inj heq
    exact hnamed
  · intro k
    rw [hs.domain, h.known]
    simp only [KnownAfter, List.mem_append, List.mem_singleton, or_and_right, exists_or, or_assoc]
    simp

theorem Between.leech {l : List Addr} (h : Between st₀ p done l q st)
    (hnew : ∀ text, .leech text ∉ done)
    (hc : announceClause p st (.leech text) = some (st', .ok ())) :
    ∃ l' q', Between st₀ p (done ++ [.leech text]) l' q' st' := by
  obtain ⟨st₁, hparse, hpair⟩ := Option.map_eq_some_iff.1 hc
  obtain ⟨rfl, -⟩ := Prod.mk.inj hpair
  obtain ⟨m, hl⟩ := parseAnnounceLeech_leeched h.registry h.peer hparse
  refine ⟨l ++ registered st text, { q with leech := m },
    ⟨h.toEnrolled.trans hl.toEnrolled, hl.peer, ?_, ?_, ?_, ?_, ?_⟩⟩
  · intro f
    have hseed : f ∈ l ↔ q.seed.Holds f := by
      rw [h.records]
      exact or_iff_left (h.leechUnread hnew)
    calc
      f ∈ l ++ registered st text ↔ f ∈ l ∨ f ∈ registered st text := List.mem_append
      _ ↔ q.seed.Holds f ∨ m.Holds f := or_congr hseed hl.holds_iff.symm
  · exact fun hunread => h.seedUnread fun text ht => hunread text (List.mem_append_left _ ht)
  · exact fun hunread => absurd (List.mem_append_right _ List.mem_cons_self) (hunread text)
  · have hkept : HoldsNamed st₀ done st₁ { q with leech := m } := by
      refine ⟨(h.named.mono hl.toEnrolled h.known.2).1, fun done' text' rest heq => ?_⟩
      exact absurd (heq ▸ List.mem_append_right _ List.mem_cons_self) (hnew text')
    refine hkept.snoc (fun _ heq => by cases heq) fun text' heq f => ?_
    obtain rfl := Clause.leech.inj heq
    rw [show ({ q with leech := m } : Peer).leech = m from rfl, hl.holds_iff, List.mem_filterMap, hl.fileMap]
    constructor
    · rintro ⟨k, hk, hget⟩
      exact ⟨k, hk, hget, h.known.1 (by rw [hget]; simp)⟩
    · rintro ⟨k, hk, hget, -⟩
      exact ⟨k, hk, hget⟩
  · intro k
    rw [hl.fileMap, h.known]
    simp [KnownAfter]

/-- The clauses are of different kinds. -/
def DistinctKinds (cls : List Clause) : Prop :=
  cls.Pairwise fun c d => Seen.none.mark c ≠ Seen.none.mark d

theorem distinctKinds_of_all (hlen : cls.length = 3) (hall : (cls.foldl Seen.mark Seen.none).All true) :
    DistinctKinds cls := by
  obtain ⟨a, b, c, rfl⟩ := List.length_eq_three.1 hlen
  cases a <;> cases b <;> cases c <;> simp_all [Seen.All, Seen.mark, Seen.none, DistinctKinds]

theorem announce_between (hreg : Registry st₀) (hq : st₀.peer p = some q) (hnone : ∀ f, ¬ q.Records f)
    (hdist : DistinctKinds cls) (hun : ∀ text, .seed text ∈ cls → Unambiguous st₀ (entries (tokens text)))
    (h : cls.foldlM (accept (announceClause p)) st₀ = some st) :
    ∃ l q', Between st₀ p cls l q' st := by
  refine foldlM_done (P := fun done st => ∃ l q', Between st₀ p done l q' st)
    ⟨[], q, Between.start hreg hq hnone⟩ ?_ h
  rintro done rest c st₁ st₂ rfl ⟨l, q₁, hb⟩ hc
  have hother : ∀ d ∈ done, Seen.none.mark d ≠ Seen.none.mark c := fun d hd =>
    (List.pairwise_append.1 hdist).2.2 d hd c List.mem_cons_self
  have hc := accept_eq_some.1 hc
  -- Each kind comes once, so no clause undoes what another one has entered.
  cases c with
  | listen argument => exact hb.listen hc
  | seed text =>
      exact hb.seed hreg (fun text' ht => hother _ ht rfl) (hun text (by simp)) hc
  | leech text => exact hb.leech (fun text' ht => hother _ ht rfl) hc
  | unexpected keyword => cases (Prod.mk.inj (Option.some.inj hc)).2

/-! ## What an accepted declaration leaves -/

/-- The peer `p`, with record `q`, has had a declaration made in `st` accepted. -/
structure Declares (st : Tracker) (p : Addr) (cls : List Clause) (q : Peer) (st' : Tracker) : Prop where
  enrolled : ∃ l, Enrolled p l st st'
  peer : st'.peer p = some q
  sides : ∀ {f}, st'.HasPeer f p ↔ q.Records f
  named : HoldsNamed st cls st' q
  known : ∀ {k}, KnownAfter st cls k → st'.fileMap.get k ≠ none

/-- Changing the other fields of a peer. -/
theorem Declares.modifyPeer (h : Declares st p cls q st') (hreg : Registry st') {u : Peer → Peer}
    (hseed : (u q).seed = q.seed) (hleech : (u q).leech = q.leech) :
    Declares st p cls (u q) (st'.modifyPeer p u) := by
  obtain ⟨l, henr⟩ := h.enrolled
  have hmod : Enrolled p [] st' (st'.modifyPeer p u) := enrolled_modifyPeer hreg p u
  refine ⟨⟨_, henr.trans hmod⟩, peer_modifyPeer_self h.peer, ?_, ?_, h.known⟩
  · intro f
    rw [hmod.hasPeer, h.sides]
    simp [Peer.Records, hseed, hleech]
  · have hnamed : HoldsNamed st cls (st'.modifyPeer p u) q := h.named.mono hmod h.known
    unfold HoldsNamed SeedNamed LeechNamed at hnamed ⊢
    rw [hseed, hleech]
    exact hnamed

theorem announce_declares (hreg : Registry st) (hq : st.peer p = some q) (hnone : ∀ f, ¬ q.Records f)
    (hsides : ∀ f, ¬ st.HasPeer f p) (hdist : DistinctKinds cls)
    (hun : ∀ text, .seed text ∈ cls → Unambiguous st (entries (tokens text)))
    (h : cls.foldlM (accept (announceClause p)) st = some st') : ∃ q', Declares st p cls q' st' := by
  obtain ⟨l, q', hb⟩ := announce_between hreg hq hnone hdist hun h
  refine ⟨q', ⟨l, hb.toEnrolled⟩, hb.peer, ?_, hb.named, hb.known.2⟩
  intro f
  rw [hb.hasPeer, ← hb.records]
  simp [hsides f]

theorem accept_updateClause {c : Clause} (hc : c = .seed text ∨ c = .leech text) :
    accept (updateClause p) st c = some st' ↔ parseAnnounceLeech st p text = some st' := by
  have happly : updateClause p st c = (parseAnnounceLeech st p text).map fun st => (st, .ok ()) := by
    rcases hc with rfl | rfl <;> rfl
  rw [accept_eq_some, happly]
  simp

/-- Both lists of an update go through the leech map, which keeps the files of the second one. -/
theorem leeched_twice {t₁ t₂ : CString} (hreg : Registry st) (hq : st.peer p = some q)
    (h₁ : parseAnnounceLeech st p t₁ = some st₁) (h₂ : parseAnnounceLeech st₁ p t₂ = some st') :
    ∃ m, Enrolled p (registered st t₁ ++ registered st t₂) st st' ∧
      st'.peer p = some { q with leech := m } ∧ st'.fileMap = st.fileMap ∧
      ∀ f, m.Holds f ↔ f ∈ registered st t₂ := by
  obtain ⟨m₁, hl₁⟩ := parseAnnounceLeech_leeched hreg hq h₁
  obtain ⟨m, hl⟩ := parseAnnounceLeech_leeched hl₁.registry hl₁.peer h₂
  have hreg₂ : registered st t₂ = (tokens t₂).filterMap st₁.fileMap.get := by
    rw [registered, hl₁.fileMap]
  refine ⟨m, ?_, hl.peer, hl.fileMap.trans hl₁.fileMap, fun f => ?_⟩
  · rw [hreg₂]
    exact hl₁.toEnrolled.trans hl.toEnrolled
  · rw [hreg₂]
    exact hl.holds_iff

theorem update_clauses (hlen : cls.length = 2) (hall : (cls.foldl Seen.mark Seen.none).All false) :
    ∃ seed leech, cls = [.seed seed, .leech leech] ∨ cls = [.leech leech, .seed seed] := by
  obtain ⟨a, b, rfl⟩ := List.length_eq_two.1 hlen
  cases a <;> cases b <;> simp_all [Seen.All, Seen.mark, Seen.none]

/-- What an update leaves, whichever of its lists comes last. -/
theorem leeched_declares {t₁ t₂ : CString} (hreg : Registry st) (hhash : Hashed st)
    (hq : st.peer p = some q) (hsides : ∀ f, st.HasPeer f p ↔ q.Records f)
    (h₁ : parseAnnounceLeech st p t₁ = some st₁) (h₂ : parseAnnounceLeech st₁ p t₂ = some st')
    (hseed : ∀ text, .seed text ∈ cls → SeedNamed st q text)
    (hleech : ∀ text, .leech text ∈ cls → ∀ f, f ∈ registered st t₂ ↔ f ∈ registered st text)
    (hagain : ∀ f, q.leech.Holds f ∨ f ∈ registered st t₁ → q.seed.Holds f ∨ f ∈ registered st t₂) :
    ∃ q', Declares st p cls q' st' ∧ q'.announced = q.announced := by
  obtain ⟨m, henr, hpeer, hmap, hholds⟩ := leeched_twice hreg hq h₁ h₂
  refine ⟨{ q with leech := m }, ⟨⟨_, henr⟩, hpeer, fun {f} => ?_, ⟨?_, ?_⟩, fun {k} hk => ?_⟩, rfl⟩
  · have hrec : ({ q with leech := m } : Peer).Records f ↔ q.seed.Holds f ∨ f ∈ registered st t₂ :=
      or_congr_right (hholds f)
    rw [henr.hasPeer, hsides, hrec, List.mem_append]
    constructor
    · rintro ((hf | hf) | ⟨-, hf | hf⟩)
      · exact .inl hf
      · exact hagain f (.inl hf)
      · exact hagain f (.inr hf)
      · exact .inr hf
    · rintro (hf | hf)
      · exact .inl (.inl hf)
      · exact .inr ⟨rfl, .inr hf⟩
  · exact fun text ht => (hseed text ht).mono henr
  · rintro done text rest rfl f
    have hmem : f ∈ registered st text ↔ ∃ k ∈ tokens text, st.fileMap.get k = some f :=
      List.mem_filterMap
    rw [hmap]
    calc
      m.Holds f ↔ f ∈ registered st text := by rw [hholds, hleech text (by simp)]
      _ ↔ ∃ k ∈ tokens text, st.fileMap.get k = some f := hmem
      _ ↔ ∃ k ∈ tokens text, st.fileMap.get k = some f ∧ KnownAfter st done k := by
        refine exists_congr fun k => and_congr_right fun _ => ?_
        exact ⟨fun hget => ⟨hget, .inl (by simp [hget])⟩, And.left⟩
  · rw [hmap]
    rcases hk with hk | ⟨text, ht, e, he, rfl⟩
    · exact hk
    · obtain ⟨f, -, x, hx, -, -, hh⟩ := (hseed text ht).2 e he
      rw [← hh]
      exact hhash hx

theorem update_declares (hreg : Registry st) (hhash : Hashed st) (hq : st.peer p = some q)
    (hsides : ∀ f, st.HasPeer f p ↔ q.Records f) (hlen : cls.length = 2)
    (hall : (cls.foldl Seen.mark Seen.none).All false) (hfaith : UpdateFaithful st q cls)
    (h : cls.foldlM (accept (updateClause p)) st = some st') :
    ∃ q', Declares st p cls q' st' ∧ q'.announced = q.announced := by
  obtain ⟨seed, leech, hcls⟩ := update_clauses hlen hall
  rcases hcls with rfl | rfl
  all_goals
    obtain ⟨st₁, h₁, hrest⟩ := Option.bind_eq_some_iff.1 h
    obtain ⟨st₂, h₂, hpure⟩ := Option.bind_eq_some_iff.1 hrest
    obtain rfl := Option.some.inj hpure
  · obtain ⟨hseed, hagain⟩ := hfaith
    refine leeched_declares hreg hhash hq hsides ((accept_updateClause (.inl rfl)).1 h₁)
      ((accept_updateClause (.inr rfl)).1 h₂) ?_ ?_ ?_
    · intro text ht
      obtain rfl : text = seed := by simpa using ht
      exact hseed
    · intro text ht f
      obtain rfl : text = leech := by simpa using ht
      exact Iff.rfl
    · intro f hf
      refine hagain f (List.mem_append.2 (hf.imp_left FileMap.mem_files.2))
  · obtain ⟨hseed, hto, hfrom, hagain⟩ := hfaith
    refine leeched_declares hreg hhash hq hsides ((accept_updateClause (.inr rfl)).1 h₁)
      ((accept_updateClause (.inl rfl)).1 h₂) ?_ ?_ ?_
    · intro text ht
      obtain rfl : text = seed := by simpa using ht
      exact hseed
    · intro text ht f
      obtain rfl : text = leech := by simpa using ht
      exact ⟨hto f, hfrom f⟩
    · rintro f (hf | hf)
      · exact (hagain f (FileMap.mem_files.2 hf)).imp_right (hfrom f)
      · exact .inr (hfrom f hf)

/-! ## Runs -/

/-- The invariant that carries the two sides through a run. -/
structure Linked (h : TrackerHistory) (st : Tracker) : Prop where
  registry : Registry st
  hashed : Hashed st
  announced : ∀ {p q}, st.peer p = some q → (q.announced = true ↔ latest p h ≠ none)
  unborn : ∀ {p}, st.peerHeap.fresh ≤ p → latest p h = none
  known : ∀ {p st₀ cls}, latest p h = some (st₀, cls) → ∀ {k}, KnownAfter st₀ cls k →
    st.fileMap.get k ≠ none
  sides : ∀ {f p}, st.HasPeer f p ↔ ∃ q, st.peer p = some q ∧ q.Records f
  records : ∀ {p q}, st.peer p = some q → RecordsLatest h st p q

theorem Linked.init : Linked [] Tracker.init where
  registry := fun _ _ h => by cases h
  hashed := fun _ _ h => by cases h
  announced := fun h => by cases h
  unborn := fun _ => rfl
  known := fun h => by cases h
  sides := by
    intro f p
    constructor
    · rintro ⟨x, hx, -⟩
      cases hx
    · rintro ⟨q, hq, -⟩
      cases hq
  records := fun h => by cases h

theorem Linked.agrees (hl : Linked h st) : Agrees h st :=
  ⟨fun _ _ _ hx => (Tracker.HasPeer.file hx).symm.trans hl.sides, fun _ _ hq => hl.records hq⟩

theorem Linked.records_nothing (hl : Linked h st) (hq : st.peer p = some q) (hnone : latest p h = none)
    (f : Addr) : ¬ q.Records f := by
  have hrec := hl.records hq
  unfold RecordsLatest at hrec
  rw [hnone] at hrec
  exact hrec f

/-- The peers that an event leaves alone. -/
theorem RecordsLatest.mono {h' : TrackerHistory} {l : List Addr} (hl : Linked h st)
    (henr : Enrolled p l st st') (hlat : latest e h' = latest e h) (hrec : RecordsLatest h st e q) :
    RecordsLatest h' st' e q := by
  unfold RecordsLatest at hrec ⊢
  rw [hlat]
  split at hrec
  · exact hrec
  · next st₀ cls heq => exact hrec.mono henr (hl.known heq)

theorem Linked.declare {h' : TrackerHistory} (hl : Linked h st) (hd : Declares st p cls q st')
    (hold : st.peer p ≠ none) (hann : q.announced = true) (hlat : latest p h' = some (st, cls))
    (hothers : ∀ {e}, e ≠ p → latest e h' = latest e h) : Linked h' st' := by
  obtain ⟨l, henr⟩ := hd.enrolled
  refine ⟨henr.registry, henr.hashed hl.hashed, ?_, ?_, ?_, ?_, ?_⟩
  · intro e q' hq'
    -- What the declaring peer records is new; the other peers keep what they had.
    by_cases he : e = p
    · subst he
      obtain rfl := Option.some.inj (hd.peer.symm.trans hq')
      simp [hann, hlat]
    · rw [hothers he]
      rw [henr.others he] at hq'
      exact hl.announced hq'
  · intro e he
    rw [henr.fresh] at he
    have hne : e ≠ p := by
      rintro rfl
      obtain ⟨q', hq'⟩ := Option.ne_none_iff_exists'.1 hold
      exact absurd (Heap.lt_fresh_of_read hq') (Nat.not_lt.2 he)
    rw [hothers hne]
    exact hl.unborn he
  · intro e st₀ cls' heq k hk
    by_cases he : e = p
    · subst he
      obtain ⟨rfl, rfl⟩ := Prod.mk.inj (Option.some.inj (hlat.symm.trans heq))
      exact hd.known hk
    · rw [hothers he] at heq
      obtain ⟨g, hg⟩ := Option.ne_none_iff_exists'.1 (hl.known heq hk)
      rw [henr.lookup hg]
      simp
  · intro f e
    by_cases he : e = p
    · subst he
      rw [hd.sides, hd.peer]
      simp
    · rw [henr.hasPeer, henr.others he, ← hl.sides]
      simp [he]
  · intro e q' hq'
    by_cases he : e = p
    · subst he
      obtain rfl := Option.some.inj (hd.peer.symm.trans hq')
      unfold RecordsLatest
      rw [hlat]
      exact hd.named
    · rw [henr.others he] at hq'
      exact (hl.records hq').mono hl henr (hothers he)

theorem Linked.connect {remoteIP : CTracker.InAddr} (hl : Linked h st)
    (hstep : Step st (.connect remoteIP) st') : Linked ((st, .connect remoteIP) :: h) st' := by
  obtain rfl := Option.some.inj hstep
  have hpeer : ∀ e, ({ st with peerHeap := st.peerHeap.alloc (newPeer remoteIP) } : Tracker).peer e =
      if e = st.peerHeap.fresh then some (newPeer remoteIP) else st.peer e := fun e => Heap.read_alloc _ _ _
  have hnew : ∀ {f}, ¬ (newPeer remoteIP).Records f := by
    rintro f (hf | hf)
    · exact FileMap.not_holds_nil hf
    · exact FileMap.not_holds_nil hf
  have hfresh : latest st.peerHeap.fresh h = none := hl.unborn le_rfl
  refine ⟨hl.registry, hl.hashed, ?_, ?_, hl.known, ?_, ?_⟩
  · intro e q hq
    rw [hpeer] at hq
    split at hq
    · next he =>
        obtain rfl := Option.some.inj hq
        subst he
        exact ⟨fun hann => absurd hann Bool.false_ne_true, fun hlat => absurd hfresh hlat⟩
    · exact hl.announced hq
  · intro e he
    rw [Heap.fresh_alloc] at he
    exact hl.unborn (Nat.le_of_succ_le he)
  · intro f e
    rw [hpeer]
    split
    · next he =>
        subst he
        refine ⟨fun hmem => ?_, ?_⟩
        · obtain ⟨q, hq, -⟩ := hl.sides.1 hmem
          rw [Tracker.peer, Heap.read_fresh] at hq
          cases hq
        · rintro ⟨q, hq, hrec⟩
          obtain rfl := Option.some.inj hq
          exact absurd hrec hnew
    · exact hl.sides
  · intro e q hq
    rw [hpeer] at hq
    split at hq
    · next he =>
        obtain rfl := Option.some.inj hq
        subst he
        have hlat : latest st.peerHeap.fresh ((st, .connect remoteIP) :: h) = none := hfresh
        unfold RecordsLatest
        rw [hlat]
        exact fun f => hnew
    · exact hl.records hq

theorem Linked.disconnect (hl : Linked h st) (hfaith : Faithful h st (.disconnect p))
    (hstep : Step st (.disconnect p) st') : Linked ((st, .disconnect p) :: h) st' := by
  obtain ⟨q, hq, hpure⟩ := Option.bind_eq_some_iff.1 hstep
  obtain rfl := Option.some.inj hpure
  have hpeer : ∀ e, ({ st with peerHeap := st.peerHeap.free p } : Tracker).peer e =
      if e = p then none else st.peer e := fun e => Heap.read_free _ _ _
  have hempty : ∀ {f}, ¬ q.Records f := by
    intro f hf
    have hmem := Peer.mem_files.2 hf
    rw [hfaith q hq] at hmem
    cases hmem
  refine ⟨hl.registry, hl.hashed, ?_, ?_, hl.known, ?_, ?_⟩
  · intro e q' hq'
    rw [hpeer] at hq'
    split at hq'
    · cases hq'
    · exact hl.announced hq'
  · intro e he
    rw [Heap.fresh_free] at he
    exact hl.unborn he
  · intro f e
    rw [hpeer]
    split
    · next he =>
        subst he
        refine ⟨fun hmem => ?_, fun ⟨_, hnone, _⟩ => by cases hnone⟩
        obtain ⟨q', hq', hrec⟩ := hl.sides.1 hmem
        obtain rfl := Option.some.inj (hq.symm.trans hq')
        exact absurd hrec hempty
    · exact hl.sides
  · intro e q' hq'
    rw [hpeer] at hq'
    split at hq'
    · cases hq'
    · exact hl.records hq'

theorem accepted_eq_some {line : CString} (h : accepted st p (.request p line) = some cls) :
    ∃ st' announce, handleLine st p line = some (st', some okReply) ∧
      declaredOf line = some (announce, cls) := by
  have hif : (if p = p ∧ (handleLine st p line).map Prod.snd = some (some okReply) then
      (declaredOf line).map Prod.snd else none) = some cls := h
  split at hif
  · next hcond =>
      obtain ⟨⟨announce, _⟩, hdec, rfl⟩ := Option.map_eq_some_iff.1 hif
      obtain ⟨⟨st', _⟩, hhandle, hreply⟩ := Option.map_eq_some_iff.1 hcond.2
      obtain rfl := hreply
      exact ⟨st', announce, hhandle, hdec⟩
  · cases hif

theorem Linked.request {line : CString} (hl : Linked h st) (hok : AnsweredOk h st (.request p line))
    (hfaith : Faithful h st (.request p line)) (hstep : Step st (.request p line) st') :
    Linked ((st, .request p line) :: h) st' := by
  obtain ⟨cls, hacc⟩ := Option.ne_none_iff_exists'.1 hok
  obtain ⟨st₁, announce, hhandle, hdec⟩ := accepted_eq_some hacc
  obtain ⟨q, st₂, hq, hann, hfold, hall, rfl⟩ := handleLine_ok hhandle hdec
  have hst' : st' = clearErrors (conclude announce st₂ p) p := by
    obtain ⟨q', -, hline⟩ := Option.bind_eq_some_iff.1 hstep
    split at hline
    · cases hline
    · rw [hhandle] at hline
      exact (Option.some.inj hline).symm
  have hlen := length_of_declaredOf hdec
  have hlat : latest p ((st, .request p line) :: h) = some (st, cls) := by
    rw [latest, hacc]
  have hothers : ∀ {e}, e ≠ p → latest e ((st, .request p line) :: h) = latest e h := by
    intro e he
    have hnone : accepted st e (.request p line) = none := if_neg fun hc => he hc.1.symm
    rw [latest, hnone]
  have hfaith' := hfaith q hq _ hdec
  have hold : st.peer p ≠ none := by simp [hq]
  subst hst'
  cases announce with
  | true =>
      have hnone : latest p h = none := by
        by_contra hne
        rw [(hl.announced hq).2 hne] at hann
        cases hann
      have hrec := hl.records_nothing hq hnone
      have hsides : ∀ f, ¬ st.HasPeer f p := by
        intro f hf
        obtain ⟨q', hq', hr⟩ := hl.sides.1 hf
        obtain rfl := Option.some.inj (hq.symm.trans hq')
        exact hrec f hr
      obtain ⟨q', hd⟩ := announce_declares hl.registry hq hrec hsides (distinctKinds_of_all hlen hall)
        (fun text ht => hfaith' _ ht text rfl) hfold
      obtain ⟨l, henr⟩ := hd.enrolled
      have hd' := hd.modifyPeer henr.registry (u := fun q => { q with announced := true }) rfl rfl
      obtain ⟨l', henr'⟩ := hd'.enrolled
      exact hl.declare (hd'.modifyPeer henr'.registry rfl rfl) hold rfl hlat hothers
  | false =>
      have hsides : ∀ f, st.HasPeer f p ↔ q.Records f := by
        intro f
        rw [hl.sides, hq]
        simp
      obtain ⟨q', hd, hann'⟩ := update_declares hl.registry hl.hashed hq hsides hlen hall hfaith' hfold
      obtain ⟨l, henr⟩ := hd.enrolled
      exact hl.declare (hd.modifyPeer henr.registry rfl rfl) hold (hann'.trans hann) hlat hothers

/-- In a run of accepted requests that do no harm, files and peers agree in every state met. -/
theorem agrees_of_faithful (hrun : TrackerRun h st) (hok : StepsMeet AnsweredOk h)
    (hfaith : StepsMeet Faithful h) : Along Agrees h st := by
  refine Run.along_of_stepsMeet (I := Linked) Linked.init ?_ Linked.agrees hrun (hok.and hfaith)
  rintro h st ev st' hl ⟨hok, hfaith⟩ hstep
  -- A peer enters files by its own requests only.
  cases ev with
  | connect remoteIP => exact hl.connect hstep
  | request p line => exact hl.request hok hfaith hstep
  | disconnect p => exact hl.disconnect hfaith hstep

/-- A peer announces a file and names it again in its update; another one comes and goes. -/
def faithfulSession : List Event :=
  [.connect ⟨127, 0, 0, 1⟩, .request 0 "announce listen 5000 seed [film 10 5 k] leech []".toList,
    .connect ⟨127, 0, 0, 1⟩, .request 0 "update seed [film 10 5 k] leech []".toList, .disconnect 1]

theorem agrees_of_faithful_update : ∃ h st, TrackerRun h st ∧ Along Agrees h st ∧
    h.length = 5 ∧ (st.file 0).map File.peers = some [0] := by
  obtain ⟨h, st, hrun, hok, hfaith, hlen⟩ := exists_run_of_replay faithfulSession
    (P := fun h st => StepsMeet AnsweredOk h ∧ StepsMeet Faithful h ∧ h.length = 5 ∧
      (st.file 0).map File.peers = some [0]) (by decide)
  exact ⟨h, st, hrun, agrees_of_faithful hrun hok hfaith, hlen⟩

/-- A peer that leaves stays in the peer set of the file it announced. -/
def leavingSession : List Event :=
  [.connect ⟨127, 0, 0, 1⟩, .request 0 "announce listen 5000 seed [film 10 5 k] leech []".toList,
    .disconnect 0]

theorem destroyed_peer_listed : ∃ h st, TrackerRun h st ∧ StepsMeet AnsweredOk h ∧ ¬ Along Agrees h st := by
  obtain ⟨h, st, hrun, hok, hpeers, hgone⟩ := exists_run_of_replay leavingSession
    (P := fun h st => StepsMeet AnsweredOk h ∧ (st.file 0).map File.peers = some [0] ∧ st.peer 0 = none)
    (by decide)
  refine ⟨h, st, hrun, hok, fun halong => ?_⟩
  obtain ⟨x, hx, hx₀⟩ := Option.map_eq_some_iff.1 hpeers
  have hmem : 0 ∈ x.peers := by simp [hx₀]
  obtain ⟨q, hq, -⟩ := (halong.last.1 0 x 0 hx).1 hmem
  rw [hgone] at hq
  cases hq

end CppTracker
end Raiezau
