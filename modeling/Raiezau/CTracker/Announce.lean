import Raiezau.CTracker.Reachable
import Raiezau.JavaClient.Tracker

/-!
# Announce — the line of a Java announcement, as the C tracker takes it

The text is cut by `sscanf`, the regular expression, the tokeniser and the numeral readers in turn; each
section follows one of them.  Narrowing happens once: a length passes through an `uint32_t` parameter.
-/

namespace Raiezau
namespace CTracker

open Memory CUtil Text Assoc Machine JavaClient

variable {st st' st₁ : Tracker} {c f : Addr} {cl : Client}

/-! ## The regular expression -/

/-- A list clause and its successor, from the first group on. -/
def twoGroups : Pattern :=
  anyGroup :: .char ']' :: (lits " leech [".toList ++ (anyGroup :: .char ']' :: []))

/-- The closing bracket of the second clause cannot close the first one. -/
theorem parse_twoGroups {S L : CString} (hS : ']' ∉ S) (hL : ']' ∉ L) {pos : Nat}
    {ms : List RegMatch} {e : Nat} :
    Parse twoGroups pos (S ++ ']' :: (" leech [".toList ++ (L ++ ']' :: ['\n']))) ms e ↔
      ms = [⟨pos, pos + S.length⟩, ⟨pos + S.length + 9, pos + S.length + 9 + L.length⟩] ∧
        e = pos + S.length + 9 + L.length + 1 := by
  have hsecond : ∀ {pos ms e}, Parse (anyGroup :: .char ']' :: []) pos (L ++ ']' :: ['\n']) ms e ↔
      ms = [⟨pos, pos + L.length⟩] ∧ e = pos + L.length + 1 := by
    intro pos ms e
    rw [parse_anyGroup_mark bracket_caseless]
    constructor
    · rintro ⟨w, t, ms', hsplit, rfl, rfl, rfl⟩
      rcases append_mark_cases hL hsplit.symm with ⟨rfl, -⟩ | ⟨v, -, hv⟩
      · exact ⟨rfl, rfl⟩
      · exact absurd (hv ▸ by simp : ']' ∈ ['\n']) (by decide)
    · rintro ⟨rfl, rfl⟩
      exact ⟨L, ['\n'], [], rfl, rfl, rfl, rfl⟩
  rw [twoGroups, parse_anyGroup_mark bracket_caseless]
  constructor
  · rintro ⟨w, t, ms', hsplit, rfl, hrest⟩
    rcases append_mark_cases hS hsplit.symm with ⟨rfl, rfl⟩ | ⟨v, -, hv⟩
    · rw [parse_lits_append, hsecond] at hrest
      obtain ⟨rfl, rfl⟩ := hrest
      exact ⟨rfl, rfl⟩
    · -- the group would end at the second bracket, and a newline follows that one
      have hclause : ']' ∉ " leech [".toList ++ L := by
        rw [List.mem_append, not_or]
        exact ⟨by decide, hL⟩
      rw [← List.append_assoc] at hv
      rcases append_mark_cases hclause hv.symm with ⟨-, rfl⟩ | ⟨u, -, hu⟩
      · obtain ⟨s', hs', -⟩ := (parse_char_caseless space_caseless).1 hrest
        cases hs'
      · exact absurd (hu ▸ by simp : ']' ∈ ['\n']) (by decide)
  · rintro ⟨rfl, rfl⟩
    refine ⟨S, _, _, rfl, rfl, ?_⟩
    rw [parse_lits_append, hsecond]
    exact ⟨rfl, rfl⟩

/-- The value of an `announce` with a port, a seed clause and a leech clause. -/
def announceValue (P S L : CString) : CString :=
  "listen ".toList ++ (P ++ ' ' :: ("seed [".toList ++
    (S ++ ']' :: (" leech [".toList ++ (L ++ ']' :: ['\n'])))))

def PortText (P : CString) : Prop := (∀ ch ∈ P, ch.isDigit = true) ∧ 1 ≤ P.length ∧ P.length ≤ 5

/-- Offsets of the two clauses in the value. -/
def seedPos (P : CString) : Nat := 7 + P.length + 7
def leechPos (P S : CString) : Nat := seedPos P + S.length + 9

theorem regexec_announce {P S L : CString} (hP : PortText P) (hS : ']' ∉ S) (hL : ']' ∉ L) :
    ∃ e, regexec announceRegexp (announceValue P S L) =
      some [⟨0, e⟩, ⟨7, 7 + P.length⟩, ⟨seedPos P, seedPos P + S.length⟩,
        ⟨leechPos P S, leechPos P S + L.length⟩] := by
  let port : Repeat := { cls := Char.isDigit, lo := 1, hi := some 5, group := true }
  have hacc : port.Accepts P := ⟨hP.1, hP.2.1, by simpa [port] using hP.2.2⟩
  have hpat : announceRegexp = lits "listen ".toList ++
      (.rep port :: .char ' ' :: (lits "seed [".toList ++ twoGroups)) := rfl
  have hlisten : "listen ".toList.length = 7 := rfl
  have hseed : "seed [".toList.length = 6 := rfl
  have hparse : ∀ {ms e}, Parse announceRegexp 0 (announceValue P S L) ms e ↔
      ms = [⟨7, 7 + P.length⟩, ⟨seedPos P, seedPos P + S.length⟩,
        ⟨leechPos P S, leechPos P S + L.length⟩] ∧ e = leechPos P S + L.length + 1 := by
    intro ms e
    unfold announceValue
    rw [hpat, parse_lits_append, parse_run_mark space_caseless (by decide) hacc, hlisten, Nat.zero_add]
    simp only [parse_lits_append, hseed, parse_twoGroups hS hL]
    constructor
    · rintro ⟨ms', rfl, rfl, rfl⟩
      exact ⟨rfl, rfl⟩
    · rintro ⟨rfl, rfl⟩
      exact ⟨_, rfl, rfl, rfl⟩
  exact ⟨_, regexec_of_unique (hparse.2 ⟨rfl, rfl⟩) fun ms' e' h => hparse.1 h⟩

/-! ## The clauses -/

theorem substr_append {A B t : CString} {so eo : Nat} (hso : so = A.length)
    (heo : eo = A.length + B.length) : substr (A ++ (B ++ t)) so eo = B := by
  subst hso heo
  simp [substr]

theorem substr_seed (P S L : CString) :
    substr (announceValue P S L) (seedPos P) (seedPos P + S.length) = S := by
  have hlisten : "listen ".toList.length = 7 := rfl
  have hseed : "seed [".toList.length = 6 := rfl
  have hsplit : announceValue P S L = ("listen ".toList ++ (P ++ ' ' :: "seed [".toList)) ++
      (S ++ ']' :: (" leech [".toList ++ (L ++ ']' :: ['\n']))) := by
    unfold announceValue
    simp
  have hlen : ("listen ".toList ++ (P ++ ' ' :: "seed [".toList)).length = seedPos P := by
    rw [List.length_append, List.length_append, List.length_cons, hlisten, hseed, seedPos]
    omega
  rw [hsplit]
  exact substr_append hlen.symm (by rw [hlen])

theorem substr_leech (P S L : CString) :
    substr (announceValue P S L) (leechPos P S) (leechPos P S + L.length) = L := by
  have hlisten : "listen ".toList.length = 7 := rfl
  have hseed : "seed [".toList.length = 6 := rfl
  have hleech : " leech [".toList.length = 8 := rfl
  have hsplit : announceValue P S L =
      ("listen ".toList ++ (P ++ ' ' :: ("seed [".toList ++ (S ++ ']' :: " leech [".toList)))) ++
        (L ++ ']' :: ['\n']) := by
    unfold announceValue
    simp
  have hlen : ("listen ".toList ++ (P ++ ' ' :: ("seed [".toList ++
      (S ++ ']' :: " leech [".toList)))).length = leechPos P S := by
    rw [List.length_append, List.length_append, List.length_cons, List.length_append,
      List.length_append, List.length_cons, hlisten, hseed, hleech, leechPos, seedPos]
    omega
  rw [hsplit]
  exact substr_append hlen.symm (by rw [hlen])

theorem drop_port (P S L : CString) : (announceValue P S L).drop 7 =
    P ++ ' ' :: ("seed [".toList ++ (S ++ ']' :: (" leech [".toList ++ (L ++ ']' :: ['\n'])))) := by
  unfold announceValue
  exact List.drop_left' rfl

/-! ## The words of a Java file -/

/-- A name or a key the client may announce. -/
def WordOk (w : CString) : Prop := w ≠ [] ∧ ∀ ch ∈ w, isspace ch = false ∧ ch ≠ '[' ∧ ch ≠ ']'

instance (w : CString) : Decidable (WordOk w) :=
  inferInstanceAs (Decidable (w ≠ [] ∧ ∀ ch ∈ w, isspace ch = false ∧ ch ≠ '[' ∧ ch ≠ ']'))

structure FileOk (f : JavaClient.File) : Prop where
  name : WordOk f.name
  key : WordOk f.key
  length_nonneg : 0 ≤ f.length
  length_lt : f.length < 2 ^ 63
  pieceSize_pos : 1 ≤ f.pieceSize
  pieceSize_lt : f.pieceSize < 2 ^ 31

theorem decimal_wordOk (n : Nat) : WordOk (decimal n) := by
  refine ⟨decimal_ne_nil n, fun ch hch => ?_⟩
  have hdigit := isDigit_of_mem_decimal hch
  refine ⟨isspace_of_isDigit hdigit, ?_, ?_⟩ <;> rintro rfl <;> cases hdigit

theorem FileOk.tokens {f : JavaClient.File} (h : FileOk f) : ∀ w ∈ f.tokens, WordOk w := by
  have hlength := integerToString_of_nonneg h.length_nonneg
  have hpiece : integerToString f.pieceSize = decimal f.pieceSize.toNat :=
    integerToString_of_nonneg (by have := h.pieceSize_pos; omega)
  intro w hw
  simp only [JavaClient.File.tokens, List.mem_cons, List.not_mem_nil, or_false] at hw
  rcases hw with rfl | rfl | rfl | rfl
  · exact h.name
  · exact hlength ▸ decimal_wordOk _
  · exact hpiece ▸ decimal_wordOk _
  · exact h.key

theorem WordOk.no_space {w : CString} (h : WordOk w) : w ≠ [] ∧ ' ' ∉ w := by
  refine ⟨h.1, fun hsp => ?_⟩
  have := (h.2 _ hsp).1
  cases this

/-- Words that are each followed by a space contain no bracket. -/
theorem bracket_not_mem_words {ws : List CString} (h : ∀ w ∈ ws, WordOk w) :
    ']' ∉ ws.flatMap fun w => w ++ [' '] := by
  intro hb
  obtain ⟨w, hw, hb⟩ := List.mem_flatMap.1 hb
  rcases List.mem_append.1 hb with hb | hb
  · exact ((h w hw).2 _ hb).2.2 rfl
  · cases List.mem_singleton.1 hb

/-! ## The text of an announcement -/

def seedTokens (files : List JavaClient.File) : List CString :=
  (seededFiles files).flatMap JavaClient.File.tokens

def leechTokens (files : List JavaClient.File) : List CString :=
  (leechedFiles files).map JavaClient.File.key

def seedText (files : List JavaClient.File) : CString :=
  (seedTokens files).flatMap fun w => w ++ [' ']

def leechText (files : List JavaClient.File) : CString :=
  (leechTokens files).flatMap fun w => w ++ [' ']

theorem doAnnounce_eq (files : List JavaClient.File) (port : Nat) : doAnnounce files port =
    "announce".toList ++ ' ' :: announceValue (decimal port) (seedText files) (leechText files) := by
  have hport : integerToString (port : Int) = decimal port := by
    rw [integerToString_of_nonneg (by omega), Int.toNat_natCast]
  unfold doAnnounce sendDeclare listenString announceValue seedText leechText seedTokens leechTokens
  rw [hport, seedString_eq, leechString_eq]
  simp

theorem FileOk.seedTokens {files : List JavaClient.File} (h : ∀ f ∈ files, FileOk f) :
    ∀ w ∈ CTracker.seedTokens files, WordOk w := by
  intro w hw
  obtain ⟨f, hf, hw⟩ := List.mem_flatMap.1 hw
  exact (h f (List.mem_filter.1 hf).1).tokens w hw

theorem FileOk.leechTokens {files : List JavaClient.File} (h : ∀ f ∈ files, FileOk f) :
    ∀ w ∈ CTracker.leechTokens files, WordOk w := by
  intro w hw
  obtain ⟨f, hf, rfl⟩ := List.mem_map.1 hw
  exact (h f (List.mem_filter.1 hf).1).key

theorem portText_decimal {port : Nat} (hport : port < 65536) : PortText (decimal port) := by
  refine ⟨fun ch hch => isDigit_of_mem_decimal hch, ?_, ?_⟩
  · exact List.length_pos_iff.2 (decimal_ne_nil port)
  · exact (Nat.length_toDigits_le_iff (by decide) (by decide)).2 (by omega)

/-! ## The request as the tracker reads it -/

/-- No word that is sent contains a NUL. -/
def NulFreeWords (files : List JavaClient.File) : Prop :=
  ∀ w ∈ seedTokens files ++ leechTokens files, '\x00' ∉ w

theorem nul_mem_words {ws : List CString} :
    ('\x00' ∈ ws.flatMap fun w => w ++ [' ']) ↔ ∃ w ∈ ws, '\x00' ∈ w := by
  simp [List.mem_flatMap]

/-- The value up to its last bracket. -/
def announceBody (P S L : CString) : CString :=
  "listen ".toList ++ (P ++ ' ' :: ("seed [".toList ++ (S ++ ']' :: (" leech [".toList ++ L))))

theorem announceValue_eq (P S L : CString) :
    announceValue P S L = announceBody P S L ++ ']' :: ['\n'] := by
  unfold announceValue announceBody
  simp

theorem nul_mem_announceBody {P S L : CString} (hP : '\x00' ∉ P) :
    '\x00' ∈ announceBody P S L ↔ '\x00' ∈ S ∨ '\x00' ∈ L := by
  have h₁ : '\x00' ∉ "listen ".toList := by decide
  have h₂ : '\x00' ∉ "seed [".toList := by decide
  have h₃ : '\x00' ∉ " leech [".toList := by decide
  unfold announceBody
  simp only [List.mem_append, List.mem_cons, h₁, h₂, h₃, hP, false_or]
  simp

theorem count_announceBody {P S L : CString} (hP : ']' ∉ P) (hS : ']' ∉ S) (hL : ']' ∉ L) :
    (announceBody P S L).count ']' = 1 := by
  have h₁ : "listen ".toList.count ']' = 0 := by decide
  have h₂ : "seed [".toList.count ']' = 0 := by decide
  have h₃ : " leech [".toList.count ']' = 0 := by decide
  unfold announceBody
  rw [List.count_append, List.count_append, List.count_cons_of_ne (by decide), List.count_append,
    List.count_append, List.count_cons_self, List.count_append, h₁, h₂, h₃,
    List.count_eq_zero.2 hP, List.count_eq_zero.2 hS, List.count_eq_zero.2 hL]

theorem decimal_no_nul (n : Nat) : '\x00' ∉ decimal n := by
  intro h
  have := isDigit_of_mem_decimal h
  cases this

theorem decimal_no_bracket (n : Nat) : ']' ∉ decimal n :=
  fun h => ((decimal_wordOk n).2 _ h).2.2 rfl

/-- What the tracker reads as the value of the request. -/
def readValue (files : List JavaClient.File) (port : Nat) : CString :=
  asCString (announceValue (decimal port) (seedText files) (leechText files))

theorem readValue_of_nulFree {files : List JavaClient.File} (h : NulFreeWords files) (port : Nat) :
    readValue files port = announceValue (decimal port) (seedText files) (leechText files) := by
  refine asCString_eq_self ?_
  rw [announceValue_eq, List.mem_append, nul_mem_announceBody (decimal_no_nul port), seedText, leechText,
    nul_mem_words, nul_mem_words]
  rintro ((⟨w, hw, hnul⟩ | ⟨w, hw, hnul⟩) | hnul)
  · exact h w (List.mem_append_left _ hw) hnul
  · exact h w (List.mem_append_right _ hw) hnul
  · revert hnul
    decide

/-- A NUL in a word cuts the second closing bracket off. -/
theorem regexec_of_nul {files : List JavaClient.File} (hok : ∀ f ∈ files, FileOk f)
    (hnul : ¬ NulFreeWords files) (port : Nat) :
    regexec announceRegexp (readValue files port) = none := by
  have hmem : '\x00' ∈ announceBody (decimal port) (seedText files) (leechText files) := by
    unfold NulFreeWords at hnul
    push Not at hnul
    obtain ⟨w, hw, hnul⟩ := hnul
    rw [nul_mem_announceBody (decimal_no_nul port), seedText, leechText, nul_mem_words, nul_mem_words]
    rcases List.mem_append.1 hw with hw | hw
    · exact .inl ⟨w, hw, hnul⟩
    · exact .inr ⟨w, hw, hnul⟩
  have hcut : readValue files port =
      asCString (announceBody (decimal port) (seedText files) (leechText files)) := by
    rw [readValue, announceValue_eq, asCString_append_of_mem hmem]
  refine regexec_eq_none bracket_caseless ?_
  have hcount := count_announceBody (decimal_no_bracket port)
    (bracket_not_mem_words (FileOk.seedTokens hok)) (bracket_not_mem_words (FileOk.leechTokens hok))
  have hle : (readValue files port).count ']' ≤ 1 := by
    rw [hcut, asCString]
    exact ((List.takeWhile_sublist _).count_le ']').trans_eq hcount
  have htwo : occurrences ']' announceRegexp = 2 := by decide
  omega

theorem handleRequest_announce (files : List JavaClient.File) (port : Nat) :
    handleRequest st c (asCString (doAnnounce files port)) =
      (protAnnounce st c (readValue files port)).map fun o =>
        (o.st, if o.ret < 0 then o.out ++ [errorReply] else o.out) := by
  have hhead : ∀ ch ∈ (readValue files port).head?, isspace ch = false := by
    intro ch hch
    obtain rfl : 'l' = ch := Option.some.inj hch
    rfl
  have hline : asCString (doAnnounce files port) = "announce".toList ++ ' ' :: readValue files port := by
    rw [doAnnounce_eq, asCString_append (by decide)]
    rfl
  rw [hline]
  exact handleRequest_word (h := .announce) (by decide) (by decide) hhead (by decide)

/-! ## Registering the seeded files -/

/-- The file registered under the key of a Java file, with its name, its piece size and a length. -/
def RegisteredAs (st : Tracker) (jf : JavaClient.File) (length : Nat) : Prop :=
  ∃ f x, fileGetByKey st jf.key = some f ∧ st.file f = some x ∧ x.filename = jf.name ∧
    x.length = length ∧ x.pieceSize = jf.pieceSize.toNat

theorem fileNew_record (st : Tracker) (filename key : CString) (length : Nat) {pieceSize : Nat}
    (hp : pieceSize ≠ 0) :
    ∃ st' x, fileNew st filename length pieceSize key = some (st', st.fileHeap.fresh) ∧
      st'.file st.fileHeap.fresh = some x ∧ x.filename = filename ∧ x.length = length ∧
      x.pieceSize = pieceSize := by
  unfold fileNew
  rw [if_neg hp]
  exact ⟨_, _, rfl, Heap.read_alloc_fresh _ _, rfl, rfl, rfl⟩

/-- A seeded file under a new key is registered as announced, but for the width of its length. -/
theorem fileGetOrCreate_fresh (hreg : Registry st) {jf : JavaClient.File} (hok : FileOk jf)
    (hfresh : fileGetByKey st jf.key = none) :
    ∃ st' f, fileGetOrCreate st jf.name (atol (integerToString jf.length))
        (atoi (integerToString jf.pieceSize)) jf.key = some (st', f) ∧
      RegisteredAs st' jf (jf.length.toNat % 2 ^ 32) := by
  have h₁ := hok.length_nonneg
  have h₂ := hok.length_lt
  have h₃ := hok.pieceSize_pos
  have h₄ := hok.pieceSize_lt
  have hpiece : toUInt32 (atoi (integerToString jf.pieceSize)) = jf.pieceSize.toNat := by
    rw [integerToString_of_nonneg (by omega), atoi_decimal (by omega), toUInt32_natCast]
    omega
  have hlength : toUInt32 (atol (integerToString jf.length)) = jf.length.toNat % 2 ^ 32 := by
    rw [integerToString_of_nonneg h₁, atol_decimal (by omega), toUInt32_natCast]
  have hpiece0 : jf.pieceSize.toNat ≠ 0 := by omega
  obtain ⟨st', x, heq, hx, hname, hlen, hsize⟩ :=
    fileNew_record st jf.name jf.key (jf.length.toNat % 2 ^ 32) hpiece0
  obtain ⟨-, -, hkey, -⟩ := fileNew_spec hreg hfresh heq
  refine ⟨st', st.fileHeap.fresh, ?_, _, x, hkey, hx, hname, hlen, hsize⟩
  rw [fileGetOrCreate, hfresh, hlength, hpiece]
  exact heq

theorem RegisteredAs.gains {jf : JavaClient.File} {length : Nat} (h : RegisteredAs st jf length)
    (hg : Gains st st') : RegisteredAs st' jf length := by
  obtain ⟨f, x, hkey, hx, hrest⟩ := h
  exact ⟨f, x, hg.lookup hkey, hg.old hx, hrest⟩

theorem getSeedFiles_fresh {files : List JavaClient.File} (hreg : Registry st)
    (hok : ∀ jf ∈ files, FileOk jf) (hnodup : (files.map JavaClient.File.key).Nodup)
    (hfresh : ∀ jf ∈ files, fileGetByKey st jf.key = none) :
    ∃ st' l, getSeedFiles st (files.flatMap JavaClient.File.tokens) = some (st', l) ∧
      ∀ jf ∈ files, RegisteredAs st' jf (jf.length.toNat % 2 ^ 32) := by
  -- The keys are distinct, so an entry never finds the file of one before it.
  induction files generalizing st with
  | nil => exact ⟨st, [], rfl, by simp⟩
  | cons jf files ih =>
      obtain ⟨st₁, f, heq, hjf⟩ := fileGetOrCreate_fresh hreg (hok jf (by simp)) (hfresh jf (by simp))
      obtain ⟨hreg₁, hg₁, -, hdom₁⟩ := fileGetOrCreate_spec hreg heq
      rw [List.map_cons, List.nodup_cons] at hnodup
      have hfresh₁ : ∀ g ∈ files, fileGetByKey st₁ g.key = none := by
        intro g hg
        by_contra hne
        rcases (hdom₁ g.key).1 hne with hold | hsame
        · exact hold (hfresh g (by simp [hg]))
        · exact hnodup.1 (List.mem_map.2 ⟨g, hg, hsame⟩)
      obtain ⟨st₂, l, hrest, hall⟩ := ih hreg₁ (fun g hg => hok g (by simp [hg])) hnodup.2 hfresh₁
      obtain ⟨-, hg₂, -, -⟩ := getSeedFiles_spec hreg₁ hrest
      refine ⟨st₂, f :: l, ?_, ?_⟩
      · have htokens : (jf :: files).flatMap JavaClient.File.tokens = jf.name ::
            integerToString jf.length :: integerToString jf.pieceSize :: jf.key ::
              files.flatMap JavaClient.File.tokens := rfl
        rw [htokens, getSeedFiles]
        simp [heq, hrest]
      · intro g hg
        rcases List.mem_cons.1 hg with rfl | hg
        · exact hjf.gains hg₂
        · exact hall g hg

theorem length_tokens (files : List JavaClient.File) :
    (files.flatMap JavaClient.File.tokens).length = 4 * files.length := by
  induction files with
  | nil => rfl
  | cons jf files ih =>
      rw [List.flatMap_cons, List.length_append, ih, List.length_cons]
      simp only [JavaClient.File.tokens, List.length_cons, List.length_nil]
      omega

theorem entryKeys_tokens (files : List JavaClient.File) :
    entryKeys (files.flatMap JavaClient.File.tokens) = files.map JavaClient.File.key := by
  induction files with
  | nil => rfl
  | cons jf files ih =>
      have htokens : (jf :: files).flatMap JavaClient.File.tokens = jf.name ::
          integerToString jf.length :: integerToString jf.pieceSize :: jf.key ::
            files.flatMap JavaClient.File.tokens := rfl
      rw [htokens, entryKeys, ih, List.map_cons]

theorem stringSplit_seedText {files : List JavaClient.File} (hok : ∀ jf ∈ files, FileOk jf) :
    stringSplit (seedText files) [' '] = seedTokens files :=
  stringSplit_space_flatMap fun w hw => (FileOk.seedTokens hok w hw).no_space

theorem stringSplit_leechText {files : List JavaClient.File} (hok : ∀ jf ∈ files, FileOk jf) :
    stringSplit (leechText files) [' '] = leechTokens files :=
  stringSplit_space_flatMap fun w hw => (FileOk.leechTokens hok w hw).no_space

theorem seedTokens_four (files : List JavaClient.File) : ¬ (seedTokens files).length % 4 ≠ 0 := by
  rw [seedTokens, length_tokens]
  omega

theorem seedKeys_seedText {files : List JavaClient.File} (hok : ∀ jf ∈ files, FileOk jf) :
    seedKeys (seedText files) = (seededFiles files).map JavaClient.File.key := by
  simp only [seedKeys, stringSplit_seedText hok]
  rw [if_neg (seedTokens_four files), seedTokens, entryKeys_tokens]

theorem getSeedFileList_seedText {files : List JavaClient.File} (hok : ∀ jf ∈ files, FileOk jf) :
    getSeedFileList st (seedText files) = getSeedFiles st (seedTokens files) := by
  simp only [getSeedFileList, stringSplit_seedText hok]
  rw [if_neg (seedTokens_four files)]

/-! ## Adding the client to the tables -/

theorem fileAddClient_total {key : CString} (hc : st.client c = some cl)
    (hkey : cl.listenAddrKey = some key) {x : File} (hx : st.file f = some x) :
    ∃ st', fileAddClient c st f = some st' := by
  simp [fileAddClient, hc, hkey, hx]

theorem foldlM_fileAddClient_total {key : CString} {l : List Addr} (hc : st.client c = some cl)
    (hkey : cl.listenAddrKey = some key) (hl : ∀ f ∈ l, ∃ x, st.file f = some x) :
    ∃ st', l.foldlM (fileAddClient c) st = some st' := by
  -- Adding the client to one file leaves the client and the other files there.
  induction l generalizing st with
  | nil => exact ⟨st, rfl⟩
  | cons f l ih =>
      obtain ⟨x, hx⟩ := hl f (by simp)
      obtain ⟨st₁, hadd⟩ := fileAddClient_total hc hkey hx
      have hret := (fileAddClient_spec hc hadd).toRetabled
      have hl₁ : ∀ g ∈ l, ∃ y, st₁.file g = some y := by
        intro g hg
        obtain ⟨y, hy⟩ := hl g (by simp [hg])
        obtain ⟨t, ht⟩ := hret.file_some hy
        exact ⟨_, ht⟩
      obtain ⟨st', hrest⟩ := ih ((hret.client c).trans hc) hl₁
      exact ⟨st', by simp [List.foldlM_cons, hadd, hrest]⟩

theorem RegisteredAs.retabled {jf : JavaClient.File} {length : Nat} (h : RegisteredAs st jf length)
    (hret : Retabled st st') : RegisteredAs st' jf length := by
  obtain ⟨f, x, hkey, hx, hrest⟩ := h
  obtain ⟨t, ht⟩ := hret.file_some hx
  exact ⟨f, _, (hret.fileGetByKey _).trans hkey, ht, hrest⟩

theorem seedLeech_total {req key : CString} {pm : List RegMatch} {seeds : List Addr}
    (hreg : Registry st) (hc : st.client c = some cl) (hkey : cl.listenAddrKey = some key)
    (hseed : getSeedFileList st (substr req (slot pm 1).so (slot pm 1).eo) = some (st₁, seeds)) :
    ∃ st', seedLeechMatchAndParse st c req pm = some st' ∧
      ∀ {jf length}, RegisteredAs st₁ jf length → RegisteredAs st' jf length := by
  obtain ⟨hreg₁, hg, hall, -⟩ := getSeedFileList_spec hreg hseed
  let leeches := getLeechFileList st₁ (substr req (slot pm 2).so (slot pm 2).eo)
  let cl' : Client := { cl with filesSeed := seeds, filesLeech := leeches }
  let st₂ := st₁.modifyClient c fun cl => { cl with filesSeed := seeds, filesLeech := leeches }
  have hc₂ : st₂.client c = some cl' := by
    rw [client_modifyClient, if_pos rfl, hg.client, hc]
    rfl
  have hregistered : ∀ {f k}, fileGetByKey st₁ k = some f → ∃ x, st₂.file f = some x := by
    intro f k hk
    obtain ⟨x, hx, -⟩ := hreg₁.file_of_key hk
    exact ⟨x, hx⟩
  have hseeds : ∀ f ∈ seeds, ∃ x, st₂.file f = some x := by
    intro f hf
    obtain ⟨k, -, hk⟩ := exists_of_mem_left hall.flip hf
    exact hregistered hk
  have hleeches : ∀ f ∈ leeches, ∃ x, st₂.file f = some x := by
    intro f hf
    obtain ⟨k, -, hk⟩ := List.mem_filterMap.1 hf
    exact hregistered hk
  obtain ⟨st₃, hadd₁⟩ := foldlM_fileAddClient_total hc₂ hkey hseeds
  have hret₁ := (foldlM_fileAddClient_spec hc₂ hadd₁).toRetabled
  have hc₃ : st₃.client c = some cl' := (hret₁.client c).trans hc₂
  have hleeches₃ : ∀ f ∈ leeches, ∃ x, st₃.file f = some x := by
    intro f hf
    obtain ⟨x, hx⟩ := hleeches f hf
    obtain ⟨t, ht⟩ := hret₁.file_some hx
    exact ⟨_, ht⟩
  obtain ⟨st', hadd₂⟩ := foldlM_fileAddClient_total hc₃ hkey hleeches₃
  have hret₂ := (foldlM_fileAddClient_spec hc₃ hadd₂).toRetabled
  refine ⟨st', ?_, fun {jf length} h => ?_⟩
  · rw [seedLeechMatchAndParse, hseed]
    simp only [Option.bind_eq_bind, Option.bind_some]
    exact Option.bind_eq_some_iff.2 ⟨st₃, hadd₁, hadd₂⟩
  · have h₂ : RegisteredAs st₂ jf length := h
    exact h₂.retabled (hret₁.trans hret₂)

/-! ## The whole announcement -/

/-- The declaration an announcement of Java files amounts to. -/
def javaDeclaration (files : List JavaClient.File) (port : Nat) : Declaration :=
  { port := some port
    seedKeys := (seededFiles files).map JavaClient.File.key
    leechKeys := (leechedFiles files).map JavaClient.File.key }

/-- What the tracker does with an announcement that no NUL cuts short. -/
theorem protAnnounce_java (hw : WellFormed st) (hc : st.client c = some cl)
    {files : List JavaClient.File} {port : Nat} (hport : port < 65536)
    (hok : ∀ jf ∈ files, FileOk jf)
    (hnodup : ((seededFiles files).map JavaClient.File.key).Nodup)
    (hfresh : ∀ jf ∈ seededFiles files, fileGetByKey st jf.key = none) (hnul : NulFreeWords files) :
    ∃ st' cl', protAnnounce st c (readValue files port) = some ⟨st', 0, [okReply]⟩ ∧
      Declares c (javaDeclaration files port) cl cl' st st' ∧
      ∀ jf ∈ seededFiles files, RegisteredAs st' jf (jf.length.toNat % 2 ^ 32) := by
  have hokSeeded : ∀ jf ∈ seededFiles files, FileOk jf := fun jf h => hok jf (List.mem_filter.1 h).1
  obtain ⟨e, hregex⟩ := regexec_announce (S := seedText files) (L := leechText files)
    (portText_decimal hport) (bracket_not_mem_words (FileOk.seedTokens hok))
    (bracket_not_mem_words (FileOk.leechTokens hok))
  let value := announceValue (decimal port) (seedText files) (leechText files)
  let pm : List RegMatch := [⟨0, e⟩, ⟨7, 7 + (decimal port).length⟩,
    ⟨seedPos (decimal port), seedPos (decimal port) + (seedText files).length⟩,
    ⟨leechPos (decimal port) (seedText files),
      leechPos (decimal port) (seedText files) + (leechText files).length⟩]
  have hportValue : toUInt16 (atoi (value.drop (slot pm 1).so)) = port := by
    have hdrop : value.drop (slot pm 1).so = decimal port ++ ' ' :: ("seed [".toList ++
        (seedText files ++ ']' :: (" leech [".toList ++ (leechText files ++ ']' :: ['\n'])))) :=
      drop_port _ _ _
    have hstop : ∀ {t : CString}, ∀ ch ∈ (' ' :: t).head?, ch.isDigit = false := by
      rintro t ch ⟨⟩
      rfl
    rw [hdrop, atoi_decimal_append (by omega) hstop, toUInt16_natCast]
    omega
  have hseedClause : substr value (slot pm 2).so (slot pm 2).eo = seedText files := substr_seed _ _ _
  have hleechClause : substr value (slot pm 3).so (slot pm 3).eo = leechText files := substr_leech _ _ _
  have hdeclares : declarationOf (some (toUInt16 (atoi (value.drop (slot pm 1).so)))) value
      (slot pm 2) (slot pm 3) = javaDeclaration files port := by
    rw [declarationOf, hportValue, hseedClause, hleechClause, seedKeys_seedText hok,
      stringSplit_leechText hok]
    rfl
  let st₀ := clientSetListeningPort st c port
  let cl₀ : Client := { cl with listeningPort := port, listenAddrKey := some (listenKey cl.addr port) }
  have hc₀ : st₀.client c = some cl₀ := by
    have hmod := client_modifyClient st c c fun cl =>
      { cl with listeningPort := port, listenAddrKey := some (listenKey cl.addr port) }
    rw [if_pos rfl, hc] at hmod
    exact hmod
  have hreg₀ : Registry st₀ := hw.toRegistry.congr (fun _ => rfl) rfl
  obtain ⟨st₁, seeds, hseeds, hall⟩ := getSeedFiles_fresh hreg₀ hokSeeded hnodup hfresh
  have hseedList : getSeedFileList st₀ (substr value (slot ((pm.set 1 (slot pm 0)).drop 1) 1).so
      (slot ((pm.set 1 (slot pm 0)).drop 1) 1).eo) = some (st₁, seeds) := by
    rw [slot_shifted _ _ (by decide), hseedClause, getSeedFileList_seedText hok]
    exact hseeds
  obtain ⟨st', hmatch, hkeep⟩ := seedLeech_total hreg₀ hc₀ rfl hseedList
  have hannounce : announceMatchAndParse st c value pm = some st' := by
    rw [announceMatchAndParse, hportValue]
    exact hmatch
  obtain ⟨cl', hd⟩ := announce_spec hw.toRegistry hw.tables hc hannounce
  rw [hdeclares] at hd
  refine ⟨st', cl', ?_, hd, fun jf hjf => hkeep (hall jf hjf)⟩
  rw [readValue_of_nulFree hnul, protAnnounce, hregex]
  exact Option.bind_eq_some_iff.2 ⟨st', hannounce, rfl⟩

/-- The tracker answers ok; the seeded files are registered as announced; the client is in the table of
every announced file that is registered by then, under its endpoint; and nothing else is new. -/
def AnnounceArrives (st : Tracker) (c : Addr) (cl : Client) (files : List JavaClient.File)
    (port : Nat) : Prop :=
  ∃ st', handleRequest st c (asCString (doAnnounce files port)) = some (st', [okReply]) ∧
    (∀ jf ∈ files, jf.seeded = true → ∃ f x, fileGetByKey st' jf.key = some f ∧ st'.file f = some x ∧
      x.filename = jf.name ∧ (x.length : Int) = jf.length ∧ (x.pieceSize : Int) = jf.pieceSize) ∧
    (∀ jf ∈ files, ∀ f, fileGetByKey st' jf.key = some f →
      st'.Holds f (listenKey cl.addr port) c) ∧
    (∀ k, fileGetByKey st' k ≠ none →
      fileGetByKey st k ≠ none ∨ ∃ jf ∈ files, jf.seeded = true ∧ jf.key = k) ∧
    ∀ f k e, st'.Holds f k e → st.Holds f k e ∨
      (e = c ∧ k = listenKey cl.addr port ∧ ∃ jf ∈ files, fileGetByKey st' jf.key = some f)

/-- No word sent contains a NUL, every seeded length fits in 32 bits, and no registered file that the
client leeches lists another client under the announced endpoint. -/
def AnnounceCondition (st : Tracker) (c : Addr) (cl : Client) (files : List JavaClient.File)
    (port : Nat) : Prop :=
  NulFreeWords files ∧ (∀ jf ∈ files, jf.seeded = true → jf.length < 2 ^ 32) ∧
    ∀ jf ∈ files, jf.seeded = false → ∀ f e, fileGetByKey st jf.key = some f →
      st.Holds f (listenKey cl.addr port) e → e = c

theorem handleRequest_announce_of_nul {files : List JavaClient.File} (hok : ∀ jf ∈ files, FileOk jf)
    (hnul : ¬ NulFreeWords files) (port : Nat) :
    handleRequest st c (asCString (doAnnounce files port)) = some (st, [errorReply]) := by
  rw [handleRequest_announce, protAnnounce, regexec_of_nul hok hnul]
  rfl

theorem Declares.lookup_old {d : Declaration} {cl' : Client} {key : CString}
    (hd : Declares c d cl cl' st st') (hw : WellFormed st) (hk : fileGetByKey st key = some f) :
    fileGetByKey st' key = some f := by
  obtain ⟨x, hx, rfl⟩ := hw.file_of_key hk
  obtain ⟨x', hx', hkey⟩ := hd.file_old hx
  exact hkey ▸ hd.registry.key_of_file hx'

theorem javaDeclaration_names {files : List JavaClient.File} {port : Nat} {jf : JavaClient.File}
    (hjf : jf ∈ files) (hreg : fileGetByKey st jf.key ≠ none ∨
      jf.key ∈ (javaDeclaration files port).seedKeys) :
    (javaDeclaration files port).Names st jf.key := by
  cases hs : jf.seeded with
  | true => exact .inl (List.mem_map.2 ⟨jf, List.mem_filter.2 ⟨hjf, hs⟩, rfl⟩)
  | false =>
      rcases hreg with hold | hseed
      · exact .inr ⟨List.mem_map.2 ⟨jf, List.mem_filter.2 ⟨hjf, by simp [hs]⟩, rfl⟩, hold⟩
      · exact .inl hseed

theorem exists_named {files : List JavaClient.File} {port : Nat} {key : CString}
    (hn : (javaDeclaration files port).Names st key) : ∃ jf ∈ files, jf.key = key := by
  rcases hn with hs | ⟨hl, -⟩
  · obtain ⟨jf, hjf, hkey⟩ := List.mem_map.1 hs
    exact ⟨jf, (List.mem_filter.1 hjf).1, hkey⟩
  · obtain ⟨jf, hjf, hkey⟩ := List.mem_map.1 hl
    exact ⟨jf, (List.mem_filter.1 hjf).1, hkey⟩

/-- The membership part: the client is entered wherever no other client holds its endpoint. -/
theorem holds_of_declares {cl' : Client} (hw : WellFormed st) {files : List JavaClient.File}
    {port : Nat} (hd : Declares c (javaDeclaration files port) cl cl' st st')
    (hfresh : ∀ jf ∈ seededFiles files, fileGetByKey st jf.key = none)
    (hfree : ∀ jf ∈ files, jf.seeded = false → ∀ f e, fileGetByKey st jf.key = some f →
      st.Holds f (listenKey cl.addr port) e → e = c)
    {jf : JavaClient.File} (hjf : jf ∈ files) (hk : fileGetByKey st' jf.key = some f) :
    st'.Holds f (listenKey cl.addr port) c := by
  obtain ⟨x', hx', hkey⟩ := hd.registry.file_of_key hk
  have hlist : f ∈ cl'.files := by
    rw [hd.names hx', hkey]
    exact javaDeclaration_names hjf (hd.domain.1 (by simp [hk]))
  refine hd.holds.2 ?_
  -- Where another client holds the endpoint this one is not entered.
  by_cases hocc : st.Occupied f (listenKey cl.addr port)
  · obtain ⟨e, hh⟩ := hocc
    obtain ⟨y, hy⟩ := hh.file_some
    obtain ⟨y', hy', hsame⟩ := hd.file_old hy
    obtain rfl := Option.some.inj (hy'.symm.trans hx')
    have hold : fileGetByKey st jf.key = some f := by
      rw [← hkey, hsame]
      exact hw.key_of_file hy
    cases hs : jf.seeded with
    | true =>
        rw [hfresh jf (List.mem_filter.2 ⟨hjf, hs⟩)] at hold
        cases hold
    | false =>
        obtain rfl := hfree jf hjf hs f e hold hh
        exact .inl hh
  · exact .inr ⟨rfl, hd.endpoint, hlist, hocc⟩

/-- An announcement of the Java client arrives exactly under the condition. -/
theorem announceArrives_iff (hw : WellFormed st) (hc : st.client c = some cl)
    {files : List JavaClient.File} {port : Nat} (hport : port ≤ 65535) (hok : ∀ jf ∈ files, FileOk jf)
    (hnodup : ((seededFiles files).map JavaClient.File.key).Nodup)
    (hfresh : ∀ jf ∈ seededFiles files, fileGetByKey st jf.key = none) :
    AnnounceArrives st c cl files port ↔ AnnounceCondition st c cl files port := by
  -- With a NUL in one of the words the text the tracker sees ends there, and does not match.
  by_cases hnul : NulFreeWords files
  · obtain ⟨st', cl', hann, hd, hall⟩ :=
      protAnnounce_java hw hc (Nat.lt_succ_of_le hport) hok hnodup hfresh hnul
    have hreply : handleRequest st c (asCString (doAnnounce files port)) = some (st', [okReply]) := by
      rw [handleRequest_announce, hann]
      rfl
    constructor
    · rintro ⟨st₂, hst₂, hseeded, hlisted, -⟩
      obtain rfl : st' = st₂ := by
        rw [hreply] at hst₂
        exact (Prod.mk.inj (Option.some.inj hst₂)).1
      refine ⟨hnul, fun jf hjf hs => ?_, fun jf hjf hs f e hk hh => ?_⟩
      · obtain ⟨f, x, hk, hx, -, hlen, -⟩ := hseeded jf hjf hs
        obtain ⟨g, y, hk', hy, -, hlen', -⟩ := hall jf (List.mem_filter.2 ⟨hjf, hs⟩)
        obtain rfl := Option.some.inj (hk.symm.trans hk')
        obtain rfl := Option.some.inj (hx.symm.trans hy)
        omega
      · have hown := hlisted jf hjf f (hd.lookup_old hw hk)
        exact (hd.wellFormed hw).holds_unique (hd.holds_old hh) hown
    · rintro ⟨-, hlength, hfree⟩
      refine ⟨st', hreply, ?_, ?_, ?_, ?_⟩
      · intro jf hjf hs
        obtain ⟨f, x, hk, hx, hname, hlen, hsize⟩ := hall jf (List.mem_filter.2 ⟨hjf, hs⟩)
        have hlt := hlength jf hjf hs
        have hnonneg := (hok jf hjf).length_nonneg
        have hpos := (hok jf hjf).pieceSize_pos
        exact ⟨f, x, hk, hx, hname, by omega, by omega⟩
      · intro jf hjf f hk
        exact holds_of_declares hw hd hfresh hfree hjf hk
      · intro k hk
        rcases hd.domain.1 hk with hold | hseed
        · exact .inl hold
        · obtain ⟨jf, hjf, hkey⟩ := List.mem_map.1 hseed
          exact .inr ⟨jf, (List.mem_filter.1 hjf).1, (List.mem_filter.1 hjf).2, hkey⟩
      · intro f k e hh
        rcases hd.holds.1 hh with hold | ⟨rfl, hend, hlist, -⟩
        · exact .inl hold
        · obtain ⟨x, hx⟩ := hd.listed hlist
          obtain ⟨jf, hjf, hkey⟩ := exists_named ((hd.names hx).1 hlist)
          refine .inr ⟨rfl, ?_, jf, hjf, hkey ▸ hd.registry.key_of_file hx⟩
          rw [hd.endpoint] at hend
          exact (Option.some.inj hend).symm
  · refine iff_of_false ?_ fun hcond => hnul hcond.1
    rintro ⟨st', hreply, -⟩
    rw [handleRequest_announce_of_nul hok hnul] at hreply
    have hout := (Prod.mk.inj (Option.some.inj hreply)).2
    revert hout
    decide

def songKey : CString := "00112233445566778899aabbccddeeff".toList

def javaFile (name key : CString) (length : Int) (seeded : Bool) : JavaClient.File :=
  { name := name
    key := key
    length := length
    seeded := seeded
    pieceSize := 1024
    bufferMap := ⟨⟨[]⟩⟩
    content := [] }

theorem announceArrives_iff_seed_and_leech : ∃ h st cl, TrackerRun h st ∧ st.client 1 = some cl ∧
    AnnounceArrives st 1 cl
      [javaFile "song".toList songKey 5000 true, javaFile "film".toList filmKey 10 false] 6882 := by
  obtain ⟨h, st, hrun, hfresh, cl, hc, hfree⟩ :=
    exists_run_of_replay
      [.connect 5 ⟨loopback, 4000⟩, .connect 6 ⟨loopback, 4001⟩, .request 0 (announceFilm "6881".toList)]
      (P := fun _ st => fileGetByKey st songKey = none ∧
        ∃ cl ∈ st.client 1, ∀ e ∈ st.entries, e.2.1 ≠ listenKey cl.addr 6882)
      (by decide +kernel)
  refine ⟨h, st, cl, hrun, hc, (announceArrives_iff (wellFormed_of_run hrun) hc (by decide) ?_ (by decide)
    ?_).2 ⟨?_, by decide, ?_⟩⟩
  · intro jf hjf
    rcases List.mem_pair.1 hjf with rfl | rfl <;>
      exact ⟨by decide, by decide, by decide, by decide, by decide, by decide⟩
  · intro jf hjf
    obtain rfl : jf = javaFile "song".toList songKey 5000 true := List.mem_singleton.1 hjf
    exact hfresh
  · unfold NulFreeWords
    decide
  · intro jf _ _ f e _ hh
    exact absurd rfl (hfree _ (Tracker.mem_entries.2 hh))

/-- A file of 2 ^ 32 bytes is registered with length zero. -/
theorem announce_truncates_length : ∃ h st cl, TrackerRun h st ∧ st.client 0 = some cl ∧
    FileOk (javaFile "film".toList filmKey (2 ^ 32) true) ∧ fileGetByKey st filmKey = none ∧
    ¬ AnnounceArrives st 0 cl [javaFile "film".toList filmKey (2 ^ 32) true] 6881 := by
  obtain ⟨h, st, hrun, ⟨cl, hc, -⟩, hfresh, hreq⟩ :=
    exists_run_of_replay [.connect 5 ⟨loopback, 4000⟩]
      (P := fun _ st => (∃ cl ∈ st.client 0, True) ∧ fileGetByKey st filmKey = none ∧
        ∃ r ∈ handleRequest st 0
            (asCString (doAnnounce [javaFile "film".toList filmKey (2 ^ 32) true] 6881)),
          fileGetByKey r.1 filmKey = some 0 ∧ ∃ x ∈ r.1.file 0, x.length = 0)
      (by decide +kernel)
  have hok : FileOk (javaFile "film".toList filmKey (2 ^ 32) true) :=
    ⟨by decide, by decide, by decide, by decide, by decide, by decide⟩
  refine ⟨h, st, cl, hrun, hc, hok, hfresh, ?_⟩
  rintro ⟨st', hst', hseeded, -⟩
  obtain ⟨⟨st₂, out⟩, hr, hk, x, hx, hzero⟩ := hreq
  obtain rfl : st' = st₂ := (Prod.mk.inj (Option.some.inj (hst'.symm.trans hr))).1
  obtain ⟨f, y, hf, hy, -, hlen, -⟩ := hseeded _ (List.mem_singleton.2 rfl) rfl
  obtain rfl : f = 0 := Option.some.inj (hf.symm.trans hk)
  obtain rfl := Option.some.inj (hy.symm.trans hx)
  rw [hzero] at hlen
  cases hlen

end CTracker
end Raiezau
