import Mathlib.Data.List.MinMax
import Raiezau.Text.Split

/-!
# Pattern — leftmost-longest matching of concatenation patterns

The fragment of POSIX extended regular expressions made of literal characters and bounded or unbounded
repetitions of a character class, some of them groups, matched case-insensitively and unanchored.

* `parses p pos s` enumerates every way `p` matches a prefix of `s`, the longest choice first at every
  repetition, from left to right;
* `regexec` takes the leftmost start that matches at all, there the longest match, and among those the
  first of the enumeration, which is the POSIX rule for subexpressions;
* `Parse` is the declarative reading of one match.  Most results about `regexec` go through
  `regexec_of_unique`: where a text has exactly one parse at its start, that parse is the answer.

The locale is taken to be the C locale, in which a character is a byte and only the ASCII letters have two cases.
-/

namespace Raiezau
namespace Text

/-! ## Patterns -/

/-- A repetition of the characters of a class, between `lo` and `hi` times. -/
structure Repeat where
  cls : Char → Bool
  lo : Nat
  hi : Option Nat
  group : Bool

inductive Item
  | char (c : Char)
  | rep (r : Repeat)

abbrev Pattern := List Item

def lits (l : List Char) : Pattern := l.map .char

/-- The start and the end offset of a matched (sub)expression. -/
structure RegMatch where
  so : Nat
  eo : Nat
  deriving DecidableEq, Repr

def sameLetter (c d : Char) : Bool := c.toLower = d.toLower

namespace Repeat

def Accepts (r : Repeat) (w : List Char) : Prop :=
  (∀ c ∈ w, r.cls c = true) ∧ r.lo ≤ w.length ∧ ∀ m ∈ r.hi, w.length ≤ m

/-- A group adds the offsets of what it matched; a plain repetition adds nothing. -/
def record (r : Repeat) (pos k : Nat) (ms : List RegMatch) : List RegMatch :=
  if r.group then ⟨pos, pos + k⟩ :: ms else ms

/-- The lengths a repetition can match at the start of a text, longest first. -/
def counts (r : Repeat) (s : List Char) : List Nat :=
  let run := (s.takeWhile r.cls).length
  let most := match r.hi with
    | none => run
    | some m => Nat.min run m
  (List.range (most + 1)).reverse.filter (fun k => decide (r.lo ≤ k))

end Repeat

/-! ## Matching -/

def parses : Pattern → Nat → List Char → List (List RegMatch × Nat)
  | [], pos, _ => [([], pos)]
  | .char _ :: _, _, [] => []
  | .char c :: p, pos, d :: s => if sameLetter c d then parses p (pos + 1) s else []
  | .rep r :: p, pos, s =>
      (r.counts s).flatMap fun k =>
        (parses p (pos + k) (s.drop k)).map fun x => (r.record pos k x.1, x.2)

/-- The preferred match that starts at a given offset. -/
def atStart (p : Pattern) (pos : Nat) (s : List Char) : Option (List RegMatch) :=
  ((parses p pos s).argmax Prod.snd).map fun x => ⟨pos, x.2⟩ :: x.1

def search (p : Pattern) : Nat → List Char → Option (List RegMatch)
  | pos, [] => atStart p pos []
  | pos, d :: s => (atStart p pos (d :: s)).or (search p (pos + 1) s)

/-- The offsets of the whole match followed by those of the groups, or no match. -/
def regexec (p : Pattern) (s : List Char) : Option (List RegMatch) := search p 0 s

/-! ## The declarative reading -/

/-- `Parse p pos s ms e`: read at offset `pos`, the pattern matches a prefix of `s` that ends at offset
`e`, with the groups at `ms`. -/
def Parse : Pattern → Nat → List Char → List RegMatch → Nat → Prop
  | [], pos, _, ms, e => ms = [] ∧ e = pos
  | .char c :: p, pos, s, ms, e =>
      ∃ d s', s = d :: s' ∧ sameLetter c d = true ∧ Parse p (pos + 1) s' ms e
  | .rep r :: p, pos, s, ms, e =>
      ∃ w s' ms', s = w ++ s' ∧ r.Accepts w ∧ ms = r.record pos w.length ms' ∧
        Parse p (pos + w.length) s' ms' e

theorem mem_counts_iff {r : Repeat} {s : List Char} {k : Nat} :
    k ∈ r.counts s ↔ k ≤ s.length ∧ r.Accepts (s.take k) := by
  have hrun : k ≤ (s.takeWhile r.cls).length ↔ k ≤ s.length ∧ ∀ c ∈ s.take k, r.cls c = true := by
    induction s generalizing k with
    | nil => simp
    | cons c s ih =>
        cases k with
        | zero => simp
        | succ k =>
            cases hc : r.cls c with
            | true => simp [hc, ih]
            | false => simp [hc]
  have hlen : k ≤ s.length → (s.take k).length = k := by
    intro h
    simp [h]
  constructor
  · intro hk
    simp only [Repeat.counts, List.mem_filter, List.mem_reverse, List.mem_range,
      decide_eq_true_eq] at hk
    obtain ⟨hmost, hlo⟩ := hk
    cases hhi : r.hi with
    | none =>
        rw [hhi] at hmost
        obtain ⟨hle, hall⟩ := hrun.1 (by simpa using Nat.le_of_lt_succ hmost)
        exact ⟨hle, hall, by rw [hlen hle]; exact hlo, by simp [hhi]⟩
    | some m =>
        rw [hhi] at hmost
        have hmin : k ≤ Nat.min (s.takeWhile r.cls).length m := Nat.le_of_lt_succ hmost
        obtain ⟨hle, hall⟩ := hrun.1 (Nat.le_trans hmin (Nat.min_le_left _ _))
        refine ⟨hle, hall, by rw [hlen hle]; exact hlo, ?_⟩
        intro m' hm'
        obtain rfl : m = m' := by simpa [hhi] using hm'
        rw [hlen hle]
        exact Nat.le_trans hmin (Nat.min_le_right _ _)
  · rintro ⟨hle, hall, hlo, hhi⟩
    rw [hlen hle] at hlo hhi
    simp only [Repeat.counts, List.mem_filter, List.mem_reverse, List.mem_range, decide_eq_true_eq]
    refine ⟨Nat.lt_succ_of_le ?_, hlo⟩
    have hk := hrun.2 ⟨hle, hall⟩
    cases h : r.hi with
    | none => simpa using hk
    | some m => exact Nat.le_min.2 ⟨hk, hhi m (by simp [h])⟩

theorem mem_parses_iff {p : Pattern} {pos : Nat} {s : List Char} {ms : List RegMatch} {e : Nat} :
    (ms, e) ∈ parses p pos s ↔ Parse p pos s ms e := by
  -- The list of parses is made in the same way as the relation.
  induction p generalizing pos s ms with
  | nil => simp [parses, Parse]
  | cons i p ih =>
      cases i with
      | char c =>
          cases s with
          | nil => simp [parses, Parse]
          | cons d s =>
              by_cases hc : sameLetter c d = true
              · simp [parses, Parse, hc, ih]
              · simp [parses, Parse, hc]
      | rep r =>
          simp only [parses, Parse, List.mem_flatMap, List.mem_map, mem_counts_iff]
          constructor
          · rintro ⟨k, ⟨hle, hacc⟩, ⟨ms', e'⟩, hmem, heq⟩
            obtain ⟨rfl, rfl⟩ : r.record pos k ms' = ms ∧ e' = e := by simpa using heq
            have hlen : (s.take k).length = k := by simp [hle]
            refine ⟨s.take k, s.drop k, ms', (List.take_append_drop k s).symm, hacc, ?_, ?_⟩
            · rw [hlen]
            · rw [hlen]
              exact ih.1 hmem
          · rintro ⟨w, s', ms', rfl, hacc, rfl, hparse⟩
            refine ⟨w.length, ⟨by simp, by simpa using hacc⟩, (ms', e), ?_, rfl⟩
            simpa using ih.2 hparse

/-- A text with exactly one parse at its start is matched by that parse. -/
theorem regexec_of_unique {p : Pattern} {s : List Char} {ms : List RegMatch} {e : Nat}
    (hparse : Parse p 0 s ms e) (huniq : ∀ ms' e', Parse p 0 s ms' e' → ms' = ms ∧ e' = e) :
    regexec p s = some (⟨0, e⟩ :: ms) := by
  have hmem : (ms, e) ∈ parses p 0 s := mem_parses_iff.2 hparse
  have hstart : atStart p 0 s = some (⟨0, e⟩ :: ms) := by
    unfold atStart
    cases hbest : (parses p 0 s).argmax Prod.snd with
    | none =>
        rw [List.argmax_eq_none.1 hbest] at hmem
        cases hmem
    | some x =>
        have hx : x ∈ parses p 0 s := List.argmax_mem hbest
        obtain ⟨h₁, h₂⟩ := huniq x.1 x.2 (mem_parses_iff.1 hx)
        rw [Option.map_some, h₁, h₂]
  cases s with
  | nil => exact hstart
  | cons d s => simp [regexec, search, hstart]

theorem search_parse {p : Pattern} {front rest : List Char} {ms : List RegMatch}
    (h : search p front.length rest = some ms) : ∃ front' rest' e gs,
      front ++ rest = front' ++ rest' ∧ ms = ⟨front'.length, e⟩ :: gs ∧ Parse p front'.length rest' gs e := by
  have hstart : ∀ {front rest}, atStart p front.length rest = some ms → ∃ front' rest' e gs,
      front ++ rest = front' ++ rest' ∧ ms = ⟨front'.length, e⟩ :: gs ∧ Parse p front'.length rest' gs e := by
    intro front rest hat
    obtain ⟨x, hbest, rfl⟩ := Option.map_eq_some_iff.1 hat
    exact ⟨front, rest, x.2, x.1, rfl, rfl, mem_parses_iff.1 (List.argmax_mem hbest)⟩
  -- A match is looked for at every position in turn.
  induction rest generalizing front with
  | nil => exact hstart h
  | cons d rest ih =>
      rcases Option.or_eq_some_iff.1 h with hat | ⟨-, hrest⟩
      · exact hstart hat
      · have hlen : (front ++ [d]).length = front.length + 1 := List.length_append
        have hfound := ih (hlen ▸ hrest)
        rwa [List.append_assoc, List.singleton_append] at hfound

/-- What is found is a parse from some place on. -/
theorem exists_parse_of_regexec {p : Pattern} {s : List Char} {ms : List RegMatch} (h : regexec p s = some ms) :
    ∃ front rest e gs, s = front ++ rest ∧ ms = ⟨front.length, e⟩ :: gs ∧ Parse p front.length rest gs e :=
  @search_parse _ [] _ _ h

/-! ## Parsing literals and repetitions -/

/-- Literals take as many characters. -/
theorem parse_lits {l : List Char} {p : Pattern} {pos : Nat} {s : List Char} {ms : List RegMatch} {e : Nat}
    (h : Parse (lits l ++ p) pos s ms e) :
    ∃ w t, s = w ++ t ∧ w.length = l.length ∧ Parse p (pos + l.length) t ms e := by
  induction l generalizing pos s with
  | nil => exact ⟨[], s, rfl, rfl, h⟩
  | cons c l ih =>
      obtain ⟨d, s', rfl, -, hp⟩ := h
      obtain ⟨w, t, rfl, hlen, hrest⟩ := ih hp
      refine ⟨d :: w, t, rfl, congrArg (· + 1) hlen, ?_⟩
      rwa [List.length_cons, Nat.add_comm l.length, ← Nat.add_assoc]

@[simp] theorem sameLetter_refl (c : Char) : sameLetter c c = true := by
  simp [sameLetter]

/-- Literals in front of a pattern are consumed by the same text. -/
theorem parse_lits_append {l : List Char} {p : Pattern} {pos : Nat} {s : List Char}
    {ms : List RegMatch} {e : Nat} :
    Parse (lits l ++ p) pos (l ++ s) ms e ↔ Parse p (pos + l.length) s ms e := by
  induction l generalizing pos with
  | nil => simp [lits]
  | cons c l ih =>
      have hpos : pos + 1 + l.length = pos + (c :: l).length := by
        simp only [List.length_cons]
        omega
      rw [← hpos, ← ih]
      simp [lits, Parse]

/-! ### Characters that are no letters -/

/-- A character that only matches itself. -/
def Caseless (c : Char) : Prop := ∀ d, sameLetter c d = true → d = c

theorem toLower_of_not_upper {c : Char} (hc : c.isUpper = false) : c.toLower = c :=
  dif_neg (of_decide_eq_false hc)

theorem isLower_toLower {c : Char} (hc : c.isUpper = true) : c.toLower.isLower = true := by
  have hrange : c.val ≥ 'A'.val ∧ c.val ≤ 'Z'.val := of_decide_eq_true hc
  have hshift : ('a'.val - 'A'.val : UInt32).toNat = 32 := rfl
  have ha : ('A'.val : UInt32).toNat = 65 ∧ ('a'.val : UInt32).toNat = 97 := ⟨rfl, rfl⟩
  have hz : ('Z'.val : UInt32).toNat = 90 ∧ ('z'.val : UInt32).toNat = 122 := ⟨rfl, rfl⟩
  have hval : c.toLower.val = c.val + ('a'.val - 'A'.val) := congrArg Char.val (dif_pos hrange)
  obtain ⟨hle, hge⟩ := hrange
  simp only [ge_iff_le, UInt32.le_iff_toNat_le] at hle hge
  have hlower : c.toLower.val ≥ 'a'.val ∧ c.toLower.val ≤ 'z'.val := by
    simp only [hval, UInt32.le_iff_toNat_le, ge_iff_le, UInt32.toNat_add, hshift]
    omega
  exact Bool.and_eq_true_iff.2 ⟨decide_eq_true hlower.1, decide_eq_true hlower.2⟩

theorem caseless_of_not_letter {c : Char} (hu : c.isUpper = false) (hl : c.isLower = false) :
    Caseless c := by
  intro d hd
  simp only [sameLetter, toLower_of_not_upper hu, decide_eq_true_eq] at hd
  cases hdu : d.isUpper with
  | false => rw [hd, toLower_of_not_upper hdu]
  | true =>
      have hlow := isLower_toLower hdu
      rw [← hd, hl] at hlow
      cases hlow

theorem parse_char_caseless {c : Char} (hc : Caseless c) {p : Pattern} {pos : Nat} {s : List Char}
    {ms : List RegMatch} {e : Nat} :
    Parse (.char c :: p) pos s ms e ↔ ∃ s', s = c :: s' ∧ Parse p (pos + 1) s' ms e := by
  constructor
  · rintro ⟨d, s', rfl, hd, hp⟩
    obtain rfl := hc d hd
    exact ⟨s', rfl, hp⟩
  · rintro ⟨s', rfl, hp⟩
    exact ⟨c, s', rfl, sameLetter_refl c, hp⟩

/-! ### Runs of a class -/

/-- A repetition that is followed by a mark outside its class matches all up to the mark. -/
theorem parse_run_mark {r : Repeat} {c : Char} (hc : Caseless c) (hout : r.cls c = false)
    {w : List Char} (hw : r.Accepts w) {p : Pattern} {pos : Nat} {t : List Char} {ms : List RegMatch}
    {e : Nat} :
    Parse (.rep r :: .char c :: p) pos (w ++ c :: t) ms e ↔
      ∃ ms', ms = r.record pos w.length ms' ∧ Parse p (pos + w.length + 1) t ms' e := by
  constructor
  · rintro ⟨v, s', ms', hs, hv, hms, hp⟩
    obtain ⟨t', rfl, hrest⟩ := (parse_char_caseless hc).1 hp
    have hnot : ∀ {u : List Char}, r.Accepts u → c ∉ u := by
      intro u hu hmem
      rw [hu.1 c hmem] at hout
      cases hout
    obtain ⟨rfl, rfl⟩ := append_mark_inj (hnot hw) (hnot hv) hs
    exact ⟨ms', hms, hrest⟩
  · rintro ⟨ms', hms, hp⟩
    exact ⟨w, c :: t, ms', rfl, hw, hms, (parse_char_caseless hc).2 ⟨t, rfl, hp⟩⟩

/-! ### Groups of arbitrary characters -/

/-- A group `(.*)`. -/
def anyGroup : Item := .rep { cls := fun _ => true, lo := 0, hi := none, group := true }

theorem parse_anyGroup {p : Pattern} {pos : Nat} {s : List Char} {ms : List RegMatch} {e : Nat} :
    Parse (anyGroup :: p) pos s ms e ↔
      ∃ w s' ms', s = w ++ s' ∧ ms = ⟨pos, pos + w.length⟩ :: ms' ∧
        Parse p (pos + w.length) s' ms' e := by
  constructor
  · rintro ⟨w, s', ms', hs, -, hms, hp⟩
    exact ⟨w, s', ms', hs, hms, hp⟩
  · rintro ⟨w, s', ms', hs, hms, hp⟩
    exact ⟨w, s', ms', hs, ⟨fun _ _ => rfl, Nat.zero_le _, by simp⟩, hms, hp⟩

/-- A group that is closed by a mark. -/
theorem parse_anyGroup_mark {c : Char} (hc : Caseless c) {p : Pattern} {pos : Nat} {s : List Char}
    {ms : List RegMatch} {e : Nat} :
    Parse (anyGroup :: .char c :: p) pos s ms e ↔
      ∃ w t ms', s = w ++ c :: t ∧ ms = ⟨pos, pos + w.length⟩ :: ms' ∧
        Parse p (pos + w.length + 1) t ms' e := by
  rw [parse_anyGroup]
  constructor
  · rintro ⟨w, s', ms', rfl, hms, hp⟩
    obtain ⟨t, rfl, hrest⟩ := (parse_char_caseless hc).1 hp
    exact ⟨w, t, ms', rfl, hms, hrest⟩
  · rintro ⟨w, t, ms', rfl, hms, hp⟩
    exact ⟨w, c :: t, ms', rfl, hms, (parse_char_caseless hc).2 ⟨t, rfl, hp⟩⟩

/-! ## Texts that do not match -/

/-- How often a pattern asks for a character literally. -/
def occurrences (c : Char) : Pattern → Nat
  | [] => 0
  | .char d :: p => (if d = c then 1 else 0) + occurrences c p
  | .rep _ :: p => occurrences c p

theorem occurrences_le_count {c : Char} (hc : Caseless c) {p : Pattern} {pos : Nat} {s : List Char}
    {ms : List RegMatch} {e : Nat} (h : Parse p pos s ms e) : occurrences c p ≤ s.count c := by
  induction p generalizing pos s ms with
  | nil => exact Nat.zero_le _
  | cons i p ih =>
      cases i with
      | char d =>
          obtain ⟨d', s', rfl, hd, hp⟩ := h
          have hrest := ih hp
          by_cases heq : d = c
          · obtain rfl : d' = c := hc d' (heq ▸ hd)
            simp only [occurrences, heq, if_true, List.count_cons_self]
            omega
          · simp only [occurrences, heq, if_false, Nat.zero_add]
            exact Nat.le_trans hrest List.count_le_count_cons
      | rep r =>
          obtain ⟨w, s', ms', rfl, -, -, hp⟩ := h
          have hrest := ih hp
          rw [occurrences, List.count_append]
          omega

/-- A text with too few of a character that the pattern asks for is not matched anywhere. -/
theorem regexec_eq_none {c : Char} (hc : Caseless c) {p : Pattern} {s : List Char}
    (hcount : s.count c < occurrences c p) : regexec p s = none := by
  have hstart : ∀ {pos t}, t.count c ≤ s.count c → atStart p pos t = none := by
    intro pos t ht
    have hnil : parses p pos t = [] := by
      refine List.eq_nil_iff_forall_not_mem.2 ?_
      rintro ⟨ms, e⟩ hm
      have := occurrences_le_count hc (mem_parses_iff.1 hm)
      omega
    simp [atStart, hnil]
  have hsearch : ∀ {pos t}, t.count c ≤ s.count c → search p pos t = none := by
    intro pos t ht
    -- What is left of the text has no more of the character than all of it.
    induction t generalizing pos with
    | nil => exact hstart ht
    | cons d t ih =>
        rw [search, hstart ht, ih (Nat.le_trans List.count_le_count_cons ht)]
        rfl
  exact hsearch (Nat.le_refl _)

/-! ## Where matches lie -/

/-- Both offsets lie between `lo` and `hi`, in this order. -/
def RegMatch.Within (m : RegMatch) (lo hi : Nat) : Prop := lo ≤ m.so ∧ m.so ≤ m.eo ∧ m.eo ≤ hi

theorem RegMatch.Within.mono {m : RegMatch} {lo lo' hi hi' : Nat} (h : m.Within lo hi) (hlo : lo' ≤ lo)
    (hhi : hi ≤ hi') : m.Within lo' hi' :=
  ⟨Nat.le_trans hlo h.1, h.2.1, Nat.le_trans h.2.2 hhi⟩

theorem parse_within {p : Pattern} {pos : Nat} {s : List Char} {ms : List RegMatch} {e : Nat}
    (h : Parse p pos s ms e) : (pos ≤ e ∧ e ≤ pos + s.length) ∧ ∀ m ∈ ms, m.Within pos (pos + s.length) := by
  -- A match of an item lies between where it starts and where the rest goes on.
  induction p generalizing pos s ms with
  | nil =>
      obtain ⟨rfl, rfl⟩ := h
      exact ⟨⟨Nat.le_refl _, Nat.le_add_right _ _⟩, fun m hm => by cases hm⟩
  | cons i p ih =>
      cases i with
      | char d =>
          obtain ⟨d', s', rfl, -, hp⟩ := h
          have hlen : pos + 1 + s'.length = pos + (d' :: s').length := by
            rw [List.length_cons]
            omega
          obtain ⟨⟨hlo, hhi⟩, hms⟩ := ih hp
          rw [hlen] at hhi hms
          exact ⟨⟨by omega, hhi⟩, fun m hm => (hms m hm).mono (Nat.le_succ pos) (Nat.le_refl _)⟩
      | rep r =>
          obtain ⟨w, s', ms', rfl, -, rfl, hp⟩ := h
          have hlen : pos + w.length + s'.length = pos + (w ++ s').length := by
            rw [List.length_append, Nat.add_assoc]
          obtain ⟨⟨hlo, hhi⟩, hms⟩ := ih hp
          rw [hlen] at hhi hms
          have hrest : ∀ m ∈ ms', m.Within pos (pos + (w ++ s').length) :=
            fun m hm => (hms m hm).mono (Nat.le_add_right _ _) (Nat.le_refl _)
          refine ⟨⟨by omega, hhi⟩, fun m hm => ?_⟩
          unfold Repeat.record at hm
          split at hm
          · rcases List.mem_cons.1 hm with rfl | hm
            · exact ⟨Nat.le_refl _, Nat.le_add_right _ _, Nat.le_trans hlo hhi⟩
            · exact hrest m hm
          · exact hrest m hm

theorem search_within {p : Pattern} {pos : Nat} {s : List Char} {ms : List RegMatch}
    (h : search p pos s = some ms) : ∀ m ∈ ms, m.Within pos (pos + s.length) := by
  have hstart : ∀ {pos t}, atStart p pos t = some ms → ∀ m ∈ ms, m.Within pos (pos + t.length) := by
    intro pos t hat m hm
    unfold atStart at hat
    obtain ⟨x, hbest, rfl⟩ := Option.map_eq_some_iff.1 hat
    obtain ⟨⟨hlo, hhi⟩, hms⟩ := parse_within (mem_parses_iff.1 (List.argmax_mem hbest))
    rcases List.mem_cons.1 hm with rfl | hm
    · exact ⟨Nat.le_refl _, hlo, hhi⟩
    · exact hms m hm
  induction s generalizing pos with
  | nil => exact hstart h
  | cons d s ih =>
      rw [search] at h
      rcases Option.or_eq_some_iff.1 h with hat | ⟨-, hrest⟩
      · exact hstart hat
      · intro m hm
        have hlen : pos + 1 + s.length = pos + (d :: s).length := by
          rw [List.length_cons]
          omega
        exact (ih hrest m hm).mono (Nat.le_succ pos) (Nat.le_of_eq hlen)

/-- The match and its groups lie in the text. -/
theorem regexec_within {p : Pattern} {s : List Char} {ms : List RegMatch} (h : regexec p s = some ms) :
    ∀ m ∈ ms, m.Within 0 s.length := by
  intro m hm
  have hin := search_within h m hm
  rwa [Nat.zero_add] at hin

end Text
end Raiezau
