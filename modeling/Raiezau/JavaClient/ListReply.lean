import Raiezau.CTracker.Protocol
import Raiezau.JavaClient.Reception

/-!
# ListReply — from the C tracker's file list to `FileManager.addFile`

`prot_look_build_file_list` prints lengths and piece sizes as unsigned numbers, `parseLookFiles` reads them
with `Integer.parseInt`.  `decodes_listReply_iff` says for which lists the two fit together.
-/

namespace Raiezau
namespace JavaClient

open CUtil Text Machine TrackerM

variable {σ φ : Type} {s s' : σ} {addFile : σ → LookEntry → Except JavaError φ × σ}
  {m : PatternMatcher} {line : CString}

/-! ## Receiving -/

theorem receiveAndGetMatcher_spec {r : Except JavaError (List CString)} (h : m.getMatcher line = r) :
    Transfers (receiveAndGetMatcher m) s [line] r [] s :=
  (Transfers.read line).bind_last (Transfers.ofExcept h)

/-- The calls of `addFile`, one for each entry, up to the first that throws. -/
def addFiles (addFile : σ → LookEntry → Except JavaError φ × σ) :
    List LookEntry → σ → Except JavaError (List φ) × σ
  | [], s => (.ok [], s)
  | e :: es, s =>
      match addFile s e with
      | (.error x, s') => (.error x, s')
      | (.ok f, s') => ((addFiles addFile es s').1.map (f :: ·), (addFiles addFile es s').2)

/-- The four words of an entry. -/
def LookEntry.tokens (e : LookEntry) : List CString :=
  [e.name, integerToString e.length, integerToString e.pieceSize, e.key]

/-- The values that `Integer.parseInt` reads. -/
def LookEntry.IntSized (e : LookEntry) : Prop := e.length < 2 ^ 31 ∧ e.pieceSize < 2 ^ 31

/-- The values that `%lu` and `%u` print. -/
def LookEntry.Unsigned (e : LookEntry) : Prop := 0 ≤ e.length ∧ 0 ≤ e.pieceSize

theorem callAddFile_spec (addFile : σ → LookEntry → Except JavaError φ × σ) (s : σ) (e : LookEntry) :
    Transfers (callAddFile addFile e) s [] (addFile s e).1 [] (addFile s e).2 :=
  Transfers.getState.bind_last (Transfers.setState.bind_last (Transfers.ofExcept rfl))

theorem parseInt_of_unsigned {n : Int} (hn : 0 ≤ n) :
    parseInt (integerToString n) = if n < 2 ^ 31 then .ok n else .error .numberFormat := by
  rw [integerToString_of_nonneg hn, parseInt_decimal_eq, Int.toNat_of_nonneg hn]

theorem parseLookFiles_spec {es : List LookEntry} (hu : ∀ e ∈ es, e.Unsigned) (hint : ∀ e ∈ es, e.IntSized) :
    Transfers (parseLookFiles addFile (es.flatMap LookEntry.tokens)) s [] (addFiles addFile es s).1 []
      (addFiles addFile es s).2 := by
  -- Four tokens at a time; the loop ends where `addFile` throws.
  induction es generalizing s with
  | nil => exact Transfers.pure []
  | cons e es ih =>
      obtain ⟨hlen, hpiece⟩ := hu e List.mem_cons_self
      obtain ⟨hlen', hpiece'⟩ := hint e List.mem_cons_self
      have hrest := fun s => ih (s := s) (fun e he => hu e (List.mem_cons_of_mem _ he))
        fun e he => hint e (List.mem_cons_of_mem _ he)
      have hcall := callAddFile_spec addFile s e
      have h₁ : parseInt (integerToString e.length) = .ok e.length := by
        rw [parseInt_of_unsigned hlen, if_pos hlen']
      have h₂ : parseInt (integerToString e.pieceSize) = .ok e.pieceSize := by
        rw [parseInt_of_unsigned hpiece, if_pos hpiece']
      refine (Transfers.ofExcept h₁).bind_last ((Transfers.ofExcept h₂).bind_last ?_)
      cases hadd : addFile s e with
      | mk r s' =>
          rw [hadd] at hcall
          cases r with
          | error x =>
              rw [addFiles, hadd]
              exact hcall.bind_error
          | ok f =>
              rw [addFiles, hadd]
              refine hcall.bind_last ?_
              have hfiles := hrest s'
              dsimp only
              cases hall : (addFiles addFile es s').1 with
              | error x =>
                  rw [hall] at hfiles
                  exact hfiles.bind_error
              | ok fs =>
                  rw [hall] at hfiles
                  exact hfiles.bind_last (Transfers.pure (f :: fs))

/-- A value that does not fit ends the loop, whatever `addFile` accepts before it. -/
theorem parseLookFiles_numberFormat {es : List LookEntry} (hu : ∀ e ∈ es, e.Unsigned)
    (hbig : ∃ e ∈ es, ¬ e.IntSized) (hadd : ∀ s e, ∃ f s', addFile s e = (.ok f, s')) :
    ∃ s', Transfers (parseLookFiles addFile (es.flatMap LookEntry.tokens)) s [] (.error .numberFormat) []
      s' := by
  induction es generalizing s with
  | nil =>
      obtain ⟨e, he, -⟩ := hbig
      cases he
  | cons e es ih =>
      obtain ⟨hlen, hpiece⟩ := hu e List.mem_cons_self
      -- The first entry with a number that does not fit ends the loop before `addFile` is called for it.
      by_cases hlen' : e.length < 2 ^ 31
      · have h₁ : parseInt (integerToString e.length) = .ok e.length := by
          rw [parseInt_of_unsigned hlen, if_pos hlen']
        by_cases hpiece' : e.pieceSize < 2 ^ 31
        · have h₂ : parseInt (integerToString e.pieceSize) = .ok e.pieceSize := by
            rw [parseInt_of_unsigned hpiece, if_pos hpiece']
          have hbig' : ∃ e ∈ es, ¬ e.IntSized := by
            obtain ⟨e', he', hne⟩ := hbig
            rcases List.mem_cons.1 he' with rfl | he'
            · exact absurd ⟨hlen', hpiece'⟩ hne
            · exact ⟨e', he', hne⟩
          obtain ⟨f, s₁, hcalled⟩ := hadd s e
          obtain ⟨s', hrest⟩ := ih (s := s₁) (fun e he => hu e (List.mem_cons_of_mem _ he)) hbig'
          have hcall := callAddFile_spec addFile s e
          rw [hcalled] at hcall
          exact ⟨s', (Transfers.ofExcept h₁).bind_last ((Transfers.ofExcept h₂).bind_last
            (hcall.bind_last hrest.bind_error))⟩
        · have h₂ : parseInt (integerToString e.pieceSize) = .error .numberFormat := by
            rw [parseInt_of_unsigned hpiece, if_neg hpiece']
          exact ⟨s, (Transfers.ofExcept h₁).bind_last (Transfers.ofExcept h₂).bind_error⟩
      · have h₁ : parseInt (integerToString e.length) = .error .numberFormat := by
          rw [parseInt_of_unsigned hlen, if_neg hlen']
        exact ⟨s, (Transfers.ofExcept h₁).bind_error⟩

/-! ## The text of a list -/

/-- A word that comes through a reply. -/
def PlainWord (w : CString) : Prop := w ≠ [] ∧ ∀ c ∈ w, isBlank c = false ∧ isLineEnd c = false

/-- What a file is listed as. -/
def entryOf (x : CTracker.File) : LookEntry :=
  { name := x.filename
    length := x.length
    pieceSize := x.pieceSize
    key := x.md5Str }

def PlainFile (x : CTracker.File) : Prop := PlainWord x.filename ∧ PlainWord x.md5Str

theorem isLineEnd_of_isDigit {c : Char} (h : c.isDigit = true) : isLineEnd c = false := by
  by_contra hb
  have hall : ∀ c ∈ ['\n', '\r', '\u0085', '\u2028', '\u2029'], c.isDigit = false := by decide
  have hmem : c ∈ ['\n', '\r', '\u0085', '\u2028', '\u2029'] :=
    List.contains_iff_mem.1 (Bool.eq_true_of_not_eq_false hb)
  rw [hall c hmem] at h
  cases h

theorem plainWord_decimal (n : Nat) : PlainWord (decimal n) :=
  ⟨decimal_ne_nil n, fun _ hc =>
    ⟨isspace_of_isDigit (isDigit_of_mem_decimal hc), isLineEnd_of_isDigit (isDigit_of_mem_decimal hc)⟩⟩

/-- The line of a list reply. -/
def listLine (body : CString) : CString := "list [".toList ++ body ++ "]".toList

theorem PlainFile.tokens {x : CTracker.File} (hx : PlainFile x) : ∀ w ∈ (entryOf x).tokens, PlainWord w := by
  intro w hw
  simp only [LookEntry.tokens, entryOf, List.mem_cons, List.not_mem_nil, or_false] at hw
  rcases hw with rfl | rfl | rfl | rfl
  · exact hx.1
  · rw [integerToString_of_nonneg (Int.natCast_nonneg _)]
    exact plainWord_decimal _
  · rw [integerToString_of_nonneg (Int.natCast_nonneg _)]
    exact plainWord_decimal _
  · exact hx.2

theorem fileEntry_eq (x : CTracker.File) : CTracker.fileEntry x = [' '].intercalate (entryOf x).tokens := by
  simp [CTracker.fileEntry, LookEntry.tokens, entryOf, integerToString_of_nonneg, List.intercalate]

/-- The list text is that of its words. -/
theorem listBody_eq (xs : List CTracker.File) :
    [' '].intercalate (xs.map CTracker.fileEntry) =
      [' '].intercalate ((xs.map entryOf).flatMap LookEntry.tokens) := by
  have hentries : xs.map CTracker.fileEntry =
      ((xs.map entryOf).map LookEntry.tokens).map fun l => [' '].intercalate l := by
    simp only [List.map_map]
    exact List.map_congr_left fun x _ => fileEntry_eq x
  rw [hentries, intercalate_flatten ' ' (by simp [LookEntry.tokens])]
  rfl

/-! ## The round trip -/

/-- The client reads exactly the files of the list, and reports an empty list as such. -/
def Decodes (reply : CString) (xs : List CTracker.File) : Prop :=
  ∀ {σ φ : Type} (addFile : σ → LookEntry → Except JavaError φ × σ) (s : σ),
    if xs = [] then Transfers (receiveLook addFile) s (completeLines '\n' reply) (.error .noFile) [] s
    else Transfers (receiveLook addFile) s (completeLines '\n' reply) (addFiles addFile (xs.map entryOf) s).1
      [] (addFiles addFile (xs.map entryOf) s).2

theorem receiveLook_empty (addFile : σ → LookEntry → Except JavaError φ × σ) (s : σ) :
    Transfers (receiveLook addFile) s [listLine []] (.error .noFile) [] s := by
  have hmatch : PatternMatcher.look.getMatcher (listLine []) = .ok [[]] := look_getMatcher (by simp)
  have hempty : PatternMatcher.empty.Matches (group [[]] 0) := empty_matches_iff.2 (by simp [group])
  refine (receiveAndGetMatcher_spec hmatch).bind_last ?_
  rw [if_pos hempty]
  exact (Transfers.throw _).bind_error

/-- Words joined by single blanks. -/
theorem intercalate_plain {ws : List CString} (hws : ∀ w ∈ ws, PlainWord w) (hne : ws ≠ []) :
    (∃ c t, [' '].intercalate ws = c :: t ∧ isBlank c = false) ∧
      ∀ c ∈ [' '].intercalate ws, isLineEnd c = false := by
  constructor
  · obtain ⟨w, ws, rfl⟩ := List.exists_cons_of_ne_nil hne
    obtain ⟨hw, hchars⟩ := hws w List.mem_cons_self
    obtain ⟨c, t, rfl⟩ := List.exists_cons_of_ne_nil hw
    have hc := (hchars c List.mem_cons_self).1
    cases ws with
    | nil => exact ⟨c, t, List.intercalate_singleton, hc⟩
    | cons v vs =>
        rw [List.intercalate_cons_cons]
        exact ⟨c, _, rfl, hc⟩
  · intro c hc
    rcases mem_intercalate hc with rfl | ⟨w, hw, hmem⟩
    · decide
    · exact ((hws w hw).2 c hmem).2

theorem receiveLook_words {ws : List CString} (hws : ∀ w ∈ ws, PlainWord w) (hne : ws ≠ [])
    (hlen : ws.length % 4 = 0) {r : Except JavaError (List φ)}
    (h : Transfers (parseLookFiles addFile ws) s [] r [] s') :
    Transfers (receiveLook addFile) s [listLine ([' '].intercalate ws)] r [] s' := by
  obtain ⟨⟨c, t, hbody, hc⟩, hline⟩ := intercalate_plain hws hne
  have hdrop : ([' '].intercalate ws).dropWhile isBlank = [' '].intercalate ws := by
    rw [hbody, List.dropWhile_cons_of_neg (by simp [hc])]
  have hmatch : PatternMatcher.look.getMatcher (listLine ([' '].intercalate ws)) =
      .ok [[' '].intercalate ws] := by
    have hbrackets := look_getMatcher hline
    rw [hdrop] at hbrackets
    exact hbrackets
  have hempty : ¬ PatternMatcher.empty.Matches (group [[' '].intercalate ws] 0) := by
    intro hm
    have hblank := empty_matches_iff.1 hm c (by simp [group, hbody])
    rw [hc] at hblank
    cases hblank
  have hsplit : splitBlanks (group [[' '].intercalate ws] 0) = ws := by
    have hhead : ∀ d ∈ ([' '].intercalate ws).head?, isBlank d = false := by
      rw [hbody]
      rintro d hd
      obtain rfl : c = d := by simpa using hd
      exact hc
    calc
      splitBlanks ([' '].intercalate ws) = words isBlank ([' '].intercalate ws) :=
        splitBlanks_eq_words (by simp [hbody]) hhead
      _ = ws := words_intercalate (by decide) fun w hw => ⟨(hws w hw).1, fun d hd => ((hws w hw).2 d hd).1⟩
  refine (receiveAndGetMatcher_spec hmatch).bind_last ?_
  rw [if_neg hempty]
  dsimp only
  rw [hsplit, if_neg (not_not.2 hlen)]
  exact h

/-- The line is all that is sent. -/
theorem completeLines_listReply {body : CString} (h : ∀ c ∈ body, isLineEnd c = false) :
    completeLines '\n' (listLine body ++ ['\n']) = [listLine body] := by
  refine completeLines_line (s := []) fun hmem => ?_
  rcases List.mem_append.1 hmem with hmem | hmem
  · rcases List.mem_append.1 hmem with hmem | hmem
    · revert hmem
      decide
    · exact Bool.false_ne_true ((h _ hmem).symm.trans (by decide))
  · revert hmem
    decide

theorem addFiles_of_accepts (es : List LookEntry) (s : Unit) :
    ∃ fs, (addFiles (fun (s : Unit) _ => (.ok (), s)) es s).1 = .ok fs := by
  induction es with
  | nil => exact ⟨[], rfl⟩
  | cons e es ih =>
      obtain ⟨fs, hfs⟩ := ih
      refine ⟨() :: fs, ?_⟩
      rw [addFiles]
      dsimp only
      rw [hfs]
      rfl

theorem unsigned_of_entryOf {xs : List CTracker.File} : ∀ e ∈ xs.map entryOf, e.Unsigned := by
  intro e he
  obtain ⟨x, -, rfl⟩ := List.mem_map.1 he
  exact ⟨Int.natCast_nonneg _, Int.natCast_nonneg _⟩

/-- The reply of `prot_look`. -/
def listReply (body : CString) : CString := listLine body ++ ['\n']

theorem decodes_listReply {xs : List CTracker.File} (hplain : ∀ x ∈ xs, PlainFile x) :
    Decodes (listReply ([' '].intercalate (xs.map CTracker.fileEntry))) xs ↔
      ∀ x ∈ xs, x.length < 2 ^ 31 ∧ x.pieceSize < 2 ^ 31 := by
  have hsized : (∀ x ∈ xs, x.length < 2 ^ 31 ∧ x.pieceSize < 2 ^ 31) ↔ ∀ e ∈ xs.map entryOf, e.IntSized := by
    rw [List.forall_mem_map]
    refine forall₂_congr fun x _ => ?_
    simp only [LookEntry.IntSized, entryOf]
    omega
  rw [hsized, listReply]
  -- An empty list has no word to read.
  by_cases hnil : xs = []
  · subst hnil
    refine ⟨fun _ e he => (by cases he), fun _ {σ φ} addFile s => ?_⟩
    rw [if_pos rfl, completeLines_listReply (by simp)]
    exact receiveLook_empty addFile s
  · have hwords : ∀ w ∈ (xs.map entryOf).flatMap LookEntry.tokens, PlainWord w := by
      intro w hw
      obtain ⟨e, he, hwe⟩ := List.mem_flatMap.1 hw
      obtain ⟨x, hx, rfl⟩ := List.mem_map.1 he
      exact (hplain x hx).tokens w hwe
    have hne : (xs.map entryOf).flatMap LookEntry.tokens ≠ [] := by
      obtain ⟨x, xs, rfl⟩ := List.exists_cons_of_ne_nil hnil
      simp [LookEntry.tokens]
    have hlen : ((xs.map entryOf).flatMap LookEntry.tokens).length % 4 = 0 := by
      have hfour : ∀ e : LookEntry, e.tokens.length = 4 := fun _ => rfl
      simp [List.length_flatMap, Function.comp_def, hfour]
    have hlines : completeLines '\n' (listLine ([' '].intercalate (xs.map CTracker.fileEntry)) ++ ['\n']) =
        [listLine ([' '].intercalate ((xs.map entryOf).flatMap LookEntry.tokens))] := by
      rw [listBody_eq, completeLines_listReply (intercalate_plain hwords hne).2]
    constructor
    · intro hdec
      by_contra hbig
      push Not at hbig
      -- an `addFile` that never throws tells the two outcomes apart
      have hread := hdec (fun (s : Unit) _ => (.ok (), s)) ()
      obtain ⟨s', hfail⟩ : ∃ s', Transfers (parseLookFiles (fun (s : Unit) _ => (.ok (), s))
          ((xs.map entryOf).flatMap LookEntry.tokens)) () [] (.error .numberFormat) [] s' :=
        parseLookFiles_numberFormat unsigned_of_entryOf hbig fun s _ => ⟨(), s, rfl⟩
      obtain ⟨fs, hfs⟩ := addFiles_of_accepts (xs.map entryOf) ()
      rw [if_neg hnil, hlines, hfs] at hread
      have hboth := hread.run.symm.trans (receiveLook_words hwords hne hlen hfail).run
      cases (Prod.mk.inj (Option.some.inj hboth)).1
    · intro hint σ φ addFile s
      rw [if_neg hnil, hlines]
      exact receiveLook_words hwords hne hlen (parseLookFiles_spec unsigned_of_entryOf hint)

theorem listReply_eq (body : CString) : listReply body = "list [".toList ++ body ++ "]\n".toList := by
  have hend : "]".toList ++ ['\n'] = "]\n".toList := by decide
  calc
    listReply body = "list [".toList ++ body ++ ("]".toList ++ ['\n']) := List.append_assoc _ _ _
    _ = "list [".toList ++ body ++ "]\n".toList := congrArg _ hend

/-- The text that `prot_look` sends for a list of files is read back exactly when every length and every
piece size is an `int`. -/
theorem listReply_decodes_iff {st : CTracker.Tracker} {l : List Memory.Addr} {xs : List CTracker.File}
    (hxs : l.mapM st.file = some xs) (hplain : ∀ x ∈ xs, PlainFile x) :
    ∃ body, CTracker.protLookBuildFileList st l = some body ∧
      (∀ c v, CTracker.lookFiles st v = some (some l) →
        CTracker.protLook st c v = some ⟨st, 0, [listReply body]⟩) ∧
      (Decodes (listReply body) xs ↔ ∀ x ∈ xs, x.length < 2 ^ 31 ∧ x.pieceSize < 2 ^ 31) := by
  have hbuild : CTracker.protLookBuildFileList st l = some ([' '].intercalate (xs.map CTracker.fileEntry)) := by
    unfold CTracker.protLookBuildFileList
    rw [hxs]
    rfl
  refine ⟨_, hbuild, fun c v hsel => ?_, decodes_listReply hplain⟩
  unfold CTracker.protLook
  rw [hsel]
  change (CTracker.protLookBuildFileList st l).bind _ = _
  rw [hbuild]
  rw [listReply_eq]
  rfl

/-- A file of a given length. -/
def listedFile (length : Nat) : CTracker.File :=
  { filename := "film".toList
    md5Str := "0123456789abcdef0123456789abcdef".toList
    length := length
    pieceCount := 1
    pieceSize := 4
    clients := [] }

theorem plainFile_listedFile (n : Nat) : PlainFile (listedFile n) := by
  have hname : PlainWord "film".toList := ⟨by decide, by decide⟩
  have hkey : PlainWord "0123456789abcdef0123456789abcdef".toList := ⟨by decide, by decide⟩
  exact ⟨hname, hkey⟩

/-- A second one, in one piece of three bytes. -/
def listedSong : CTracker.File :=
  { filename := "song.ogg".toList
    md5Str := "fedcba9876543210fedcba9876543210".toList
    length := 3
    pieceCount := 1
    pieceSize := 1024
    clients := [] }

theorem plainFile_listedSong : PlainFile listedSong := by
  have hname : PlainWord "song.ogg".toList := ⟨by decide, by decide⟩
  have hkey : PlainWord "fedcba9876543210fedcba9876543210".toList := ⟨by decide, by decide⟩
  exact ⟨hname, hkey⟩

/-- Two files, of which one is the largest that is read. -/
theorem listReply_decodes_iff_two : ∃ st body, CTracker.protLookBuildFileList st [1, 0] = some body ∧
    Decodes (listReply body) [listedSong, listedFile (2 ^ 31 - 1)] := by
  let st : CTracker.Tracker :=
    { CTracker.Tracker.init with
      fileHeap := (Memory.Heap.empty.alloc (listedFile (2 ^ 31 - 1))).alloc listedSong }
  have hxs : [1, 0].mapM st.file = some [listedSong, listedFile (2 ^ 31 - 1)] := rfl
  obtain ⟨body, hbody, -, hdec⟩ :=
    listReply_decodes_iff hxs (by simp [plainFile_listedFile, plainFile_listedSong])
  exact ⟨st, body, hbody, hdec.2 (by decide)⟩

/-- A length of 2 GiB is listed and not read. -/
theorem large_length_not_decoded : (listedFile (2 ^ 31)).length < 2 ^ 32 ∧ PlainFile (listedFile (2 ^ 31)) ∧
    ¬ Decodes (listReply ([' '].intercalate ([listedFile (2 ^ 31)].map CTracker.fileEntry)))
      [listedFile (2 ^ 31)] := by
  refine ⟨by decide, plainFile_listedFile _, fun hdec => ?_⟩
  have hsmall := (decodes_listReply (by simp [plainFile_listedFile])).1 hdec _ List.mem_cons_self
  exact absurd hsmall.1 (by decide)

end JavaClient
end Raiezau
