import Mathlib.Data.List.Basic
import Mathlib.Data.List.Infix

/-!
# Split — cutting a text into words, and at the occurrences of a substring

Two ways of cutting a list of characters, over an arbitrary alphabet:

* `words sep s` : the maximal non-empty runs of non-separators, in order;
* `findSub d s` / `splitSub d s` : the first occurrence of a substring, and the parts between its
  leftmost non-overlapping occurrences.

For delimiters that end in a mark which occurs nowhere else in them (a quote, say) an occurrence is
decided at the marks of the text alone; `findSub_mark` is the rule that evaluates such a search.
-/

namespace Raiezau
namespace Text

universe u

variable {α : Type u}

/-! ## Words -/

def words (sep : α → Bool) (s : List α) : List (List α) :=
  (s.splitOnP sep).filter (fun w => !w.isEmpty)

section Words

variable {sep : α → Bool}

@[simp] theorem words_nil : words sep ([] : List α) = [] := by
  simp [words]

theorem words_cons_of_sep {c : α} (hc : sep c = true) (s : List α) :
    words sep (c :: s) = words sep s := by
  simp [words, List.splitOnP_cons_eq_if_modifyHead, hc]

/-- A word followed by a separator. -/
theorem words_append_sep {w : List α} (hw : ∀ x ∈ w, sep x = false) (hne : w ≠ []) {c : α}
    (hc : sep c = true) (s : List α) : words sep (w ++ c :: s) = w :: words sep s := by
  simp [words, List.splitOnP_append_cons_of_forall_mem hw c hc, hne]

theorem words_of_no_sep {w : List α} (hw : ∀ x ∈ w, sep x = false) (hne : w ≠ []) :
    words sep w = [w] := by
  simp [words, List.splitOnP_eq_singleton hw, hne]

theorem words_dropWhile (s : List α) : words sep (s.dropWhile sep) = words sep s := by
  induction s with
  | nil => rfl
  | cons c s ih =>
      cases hc : sep c with
      | true => rw [List.dropWhile_cons_of_pos hc, words_cons_of_sep hc, ih]
      | false => rw [List.dropWhile_cons_of_neg (by simp [hc])]

/-- No word is empty. -/
theorem ne_nil_of_mem_words {s w : List α} (h : w ∈ words sep s) : w ≠ [] := by
  have := (List.mem_filter.1 h).2
  intro hw
  simp [hw] at this

/-- Words that are each followed by one separator come back unchanged. -/
theorem words_flatMap_append {ws : List (List α)} {c : α} (hc : sep c = true)
    (hws : ∀ w ∈ ws, w ≠ [] ∧ ∀ x ∈ w, sep x = false) :
    words sep (ws.flatMap (fun w => w ++ [c])) = ws := by
  induction ws with
  | nil => simp
  | cons w ws ih =>
      obtain ⟨hne, hsep⟩ := hws w (by simp)
      have htail : words sep (ws.flatMap (fun w => w ++ [c])) = ws :=
        ih (fun v hv => hws v (by simp [hv]))
      simp [words_append_sep hsep hne hc, htail]

/-- Words with one separator in front of each. -/
theorem words_flatMap_cons {ws : List (List α)} {c : α} (hc : sep c = true)
    (hws : ∀ w ∈ ws, w ≠ [] ∧ ∀ x ∈ w, sep x = false) : words sep (ws.flatMap (fun w => c :: w)) = ws := by
  induction ws with
  | nil => simp
  | cons w ws ih =>
      obtain ⟨hne, hsep⟩ := hws w List.mem_cons_self
      have htail := ih fun v hv => hws v (List.mem_cons_of_mem w hv)
      rw [List.flatMap_cons, List.cons_append, words_cons_of_sep hc]
      cases ws with
      | nil =>
          rw [List.flatMap_nil, List.append_nil]
          exact words_of_no_sep hsep hne
      | cons v vs =>
          rw [List.flatMap_cons, List.cons_append] at htail ⊢
          rw [words_append_sep hsep hne hc, ← words_cons_of_sep hc, htail]

/-- Words that are joined by single separators come back, all but the empty ones. -/
theorem words_intercalate_filter {ws : List (List α)} {c : α} (hc : sep c = true)
    (hws : ∀ w ∈ ws, ∀ x ∈ w, sep x = false) :
    words sep ([c].intercalate ws) = ws.filter (fun w => !w.isEmpty) := by
  induction ws with
  | nil => simp
  | cons w ws ih =>
      have hsep := hws w List.mem_cons_self
      cases ws with
      | nil =>
          by_cases hne : w = []
          · simp [hne]
          · simpa [hne] using words_of_no_sep hsep hne
      | cons v vs =>
          have htail : words sep ([c].intercalate (v :: vs)) = (v :: vs).filter (fun w => !w.isEmpty) :=
            ih fun u hu => hws u (List.mem_cons_of_mem w hu)
          rw [List.intercalate_cons_cons, List.append_assoc, List.singleton_append]
          by_cases hne : w = []
          · rw [hne, List.nil_append, words_cons_of_sep hc, htail]
            rfl
          · rw [words_append_sep hsep hne hc, htail]
            exact (List.filter_cons_of_pos (by simpa using hne)).symm

theorem words_intercalate {ws : List (List α)} {c : α} (hc : sep c = true)
    (hws : ∀ w ∈ ws, w ≠ [] ∧ ∀ x ∈ w, sep x = false) :
    words sep ([c].intercalate ws) = ws := by
  rw [words_intercalate_filter hc fun w hw => (hws w hw).2, List.filter_eq_self]
  intro w hw
  simpa using (hws w hw).1

/-- Separators in front of a text. -/
theorem words_seps_append {gap : List α} (hgap : ∀ x ∈ gap, sep x = true) (s : List α) :
    words sep (gap ++ s) = words sep s := by
  induction gap with
  | nil => rfl
  | cons c gap ih =>
      rw [List.cons_append, words_cons_of_sep (hgap c List.mem_cons_self)]
      exact ih fun x hx => hgap x (List.mem_cons_of_mem c hx)

/-- Words with separators behind each, which only the last one may lack. -/
theorem words_flatMap_gaps {l : List (List α × List α)}
    (hws : ∀ p ∈ l, p.1 ≠ [] ∧ ∀ x ∈ p.1, sep x = false) (hgaps : ∀ p ∈ l, ∀ x ∈ p.2, sep x = true)
    (hbetween : ∀ p ∈ l.dropLast, p.2 ≠ []) :
    words sep (l.flatMap fun p => p.1 ++ p.2) = l.map Prod.fst := by
  induction l with
  | nil => simp
  | cons p l ih =>
      obtain ⟨w, gap⟩ := p
      obtain ⟨hne, hw⟩ := hws (w, gap) List.mem_cons_self
      have hgap := hgaps (w, gap) List.mem_cons_self
      have hrest : words sep (l.flatMap fun p => p.1 ++ p.2) = l.map Prod.fst := by
        refine ih (fun p hp => hws p (List.mem_cons_of_mem _ hp))
          (fun p hp => hgaps p (List.mem_cons_of_mem _ hp)) fun p hp => hbetween p ?_
        cases l with
        | nil => cases hp
        | cons q l => exact List.mem_cons_of_mem _ hp
      cases gap with
      | nil =>
          cases l with
          | nil => simpa using words_of_no_sep hw hne
          | cons q l => exact absurd rfl (hbetween (w, []) List.mem_cons_self)
      | cons c gap =>
          have hc := hgap c List.mem_cons_self
          have hseps : ∀ x ∈ gap, sep x = true := fun x hx => hgap x (List.mem_cons_of_mem c hx)
          calc
            words sep (((w, c :: gap) :: l).flatMap fun p => p.1 ++ p.2)
                = words sep (w ++ c :: (gap ++ l.flatMap fun p => p.1 ++ p.2)) := by simp
            _ = w :: words sep (gap ++ l.flatMap fun p => p.1 ++ p.2) := words_append_sep hw hne hc _
            _ = ((w, c :: gap) :: l).map Prod.fst := by rw [words_seps_append hseps, hrest, List.map_cons]

theorem intercalate_append {xs ys : List (List α)} (c : α) (hx : xs ≠ []) (hy : ys ≠ []) :
    [c].intercalate (xs ++ ys) = [c].intercalate xs ++ c :: [c].intercalate ys := by
  induction xs with
  | nil => exact absurd rfl hx
  | cons x xs ih =>
      by_cases hnil : xs = []
      · subst hnil
        simp [List.intercalate_cons_of_ne_nil hy]
      · rw [List.cons_append, List.intercalate_cons_of_ne_nil (List.append_ne_nil_of_left_ne_nil hnil ys),
          List.intercalate_cons_of_ne_nil hnil, ih hnil]
        simp

/-- Joining joined texts. -/
theorem intercalate_flatten {ls : List (List (List α))} (c : α) (hne : ∀ l ∈ ls, l ≠ []) :
    [c].intercalate (ls.map fun l => [c].intercalate l) = [c].intercalate ls.flatten := by
  induction ls with
  | nil => rfl
  | cons l ls ih =>
      have hl : l ≠ [] := hne l List.mem_cons_self
      have hls : ∀ l ∈ ls, l ≠ [] := fun l hl => hne l (List.mem_cons_of_mem _ hl)
      cases ls with
      | nil => simp
      | cons l' ls =>
          have hflat : (l' :: ls).flatten ≠ [] := by
            rw [List.flatten_cons]
            exact List.append_ne_nil_of_left_ne_nil (hls l' List.mem_cons_self) _
          rw [List.flatten_cons, intercalate_append c hl hflat, ← ih hls, List.map_cons,
            List.intercalate_cons_of_ne_nil (by simp)]
          simp

/-- The characters of joined words are those of the words, and possibly the separator. -/
theorem mem_intercalate {ws : List (List α)} {c x : α} (h : x ∈ [c].intercalate ws) :
    x = c ∨ ∃ w ∈ ws, x ∈ w := by
  induction ws with
  | nil => cases h
  | cons w ws ih =>
      cases ws with
      | nil => exact .inr ⟨w, by simp, by simpa using h⟩
      | cons v vs =>
          rw [List.intercalate_cons_cons, List.append_assoc, List.mem_append, List.mem_append,
            List.mem_singleton] at h
          rcases h with hw | hc | hrest
          · exact .inr ⟨w, by simp, hw⟩
          · exact .inl hc
          · rcases ih hrest with hc | ⟨u, hu, hx⟩
            · exact .inl hc
            · exact .inr ⟨u, by simp [hu], hx⟩

theorem mem_intercalate_of_mem {ws : List (List α)} {w : List α} {c x : α} (hw : w ∈ ws)
    (hx : x ∈ w) : x ∈ [c].intercalate ws := by
  induction ws with
  | nil => cases hw
  | cons v ws ih =>
      cases ws with
      | nil =>
          obtain rfl : w = v := by simpa using hw
          simpa using hx
      | cons u us =>
          rw [List.intercalate_cons_cons, List.append_assoc, List.mem_append, List.mem_append]
          rcases List.mem_cons.1 hw with rfl | hw
          · exact .inl hx
          · exact .inr (.inr (ih hw))

/-- What is left after skipping separators starts with a non-separator. -/
theorem not_sep_of_dropWhile {s t : List α} {c : α} (h : s.dropWhile sep = c :: t) :
    sep c = false := by
  have := List.head_dropWhile_not sep (l := s) (by simp [h])
  simpa [h] using this

/-- One step of a tokeniser: skip separators, take the word, drop the separator that ends it. -/
theorem words_step (s : List α) :
    words sep s =
      match s.dropWhile sep with
      | [] => []
      | t@(_ :: _) => t.takeWhile (fun x => !sep x) ::
          words sep ((t.dropWhile (fun x => !sep x)).tail) := by
  rw [← words_dropWhile]
  split
  · next h => simp [h]
  · next t c t' h =>
      have hc : sep c = false := not_sep_of_dropWhile h
      rw [h]
      have hw : ∀ x ∈ (c :: t').takeWhile (fun x => !sep x), sep x = false := by
        intro x hx
        simpa using List.all_eq_true.1 List.all_takeWhile x hx
      have hne : (c :: t').takeWhile (fun x => !sep x) ≠ [] := by
        simp [hc]
      have happ := List.takeWhile_append_dropWhile (p := fun x => !sep x) (l := c :: t')
      cases hrest : (c :: t').dropWhile (fun x => !sep x) with
      | nil =>
          rw [hrest, List.append_nil] at happ
          rw [happ] at hw
          simp [words_of_no_sep hw, happ]
      | cons d r =>
          have hd : sep d = true := by
            simpa using @not_sep_of_dropWhile _ (fun x => !sep x) _ _ _ hrest
          rw [hrest] at happ
          conv_lhs => rw [← happ]
          rw [words_append_sep hw hne hd]
          rfl

theorem mem_of_mem_splitOnP {s w : List α} {x : α} (hw : w ∈ s.splitOnP sep) (hx : x ∈ w) :
    x ∈ s := by
  induction s generalizing w with
  | nil => simp_all
  | cons c s ih =>
      rw [List.splitOnP_cons_eq_if_modifyHead] at hw
      cases hs : s.splitOnP sep with
      | nil => exact absurd hs (List.splitOnP_ne_nil _ _)
      | cons v vs =>
          have hmem : x ∈ c :: v ∨ ∃ u ∈ v :: vs, x ∈ u := by
            split at hw
            · rcases List.mem_cons.1 hw with rfl | hw
              · simp at hx
              · exact .inr ⟨w, hs ▸ hw, hx⟩
            · rw [hs, List.modifyHead_cons] at hw
              rcases List.mem_cons.1 hw with rfl | hw
              · exact .inl hx
              · exact .inr ⟨w, List.mem_cons_of_mem _ hw, hx⟩
          rcases hmem with hx | ⟨u, hu, hx⟩
          · rcases List.mem_cons.1 hx with rfl | hx
            · simp
            · exact List.mem_cons_of_mem c (ih (by simp [hs]) hx)
          · exact List.mem_cons_of_mem c (ih (by rwa [hs]) hx)

/-- Words are made of characters of the text. -/
theorem mem_of_mem_words {s w : List α} {x : α} (hw : w ∈ words sep s) (hx : x ∈ w) : x ∈ s :=
  mem_of_mem_splitOnP (List.mem_filter.1 hw).1 hx

end Words

/-! ## Occurrences of a substring -/

section Substring

variable [DecidableEq α]

/-- The offset of the first occurrence of `d`. -/
def findSub (d : List α) : List α → Option Nat
  | [] => if d = [] then some 0 else none
  | c :: s => if d <+: c :: s then some 0 else (findSub d s).map (· + 1)

def splitSubAux (d : List α) : Nat → List α → List (List α)
  | 0, s => [s]
  | n + 1, s =>
      match findSub d s with
      | none => [s]
      | some k => s.take k :: splitSubAux d n (s.drop (k + d.length))

/-- The parts of a text between the leftmost non-overlapping occurrences of `d ≠ []`. -/
def splitSub (d s : List α) : List (List α) := splitSubAux d (s.length + 1) s

theorem findSub_le_length {d s : List α} {k : Nat} (h : findSub d s = some k) :
    k + d.length ≤ s.length := by
  induction s generalizing k with
  | nil =>
      by_cases hd : d = []
      · simp [findSub, hd] at h
        simp [hd, ← h]
      · simp [findSub, hd] at h
  | cons c s ih =>
      by_cases hp : d <+: c :: s
      · simp [findSub, hp] at h
        simpa [← h] using hp.length_le
      · simp only [findSub, hp, if_false, Option.map_eq_some_iff] at h
        obtain ⟨j, hj, rfl⟩ := h
        have := ih hj
        simp only [List.length_cons]
        omega

/-- The text around the occurrence found. -/
theorem append_of_findSub {d s : List α} {k : Nat} (h : findSub d s = some k) :
    s.take k ++ d ++ s.drop (k + d.length) = s := by
  induction s generalizing k with
  | nil =>
      by_cases hd : d = []
      · simp [hd]
      · simp [findSub, hd] at h
  | cons c s ih =>
      by_cases hp : d <+: c :: s
      · obtain rfl : 0 = k := by simpa [findSub, hp] using h
        obtain ⟨t, ht⟩ := hp
        simp [← ht]
      · simp only [findSub, hp, if_false, Option.map_eq_some_iff] at h
        obtain ⟨j, hj, rfl⟩ := h
        have hrest := ih hj
        rw [Nat.add_right_comm, List.take_succ_cons, List.drop_succ_cons, List.cons_append,
          List.cons_append, hrest]

/-- The number of rounds allowed does not matter as long as it exceeds the length of the text. -/
theorem splitSubAux_fuel {d : List α} (hd : d ≠ []) {m n : Nat} {s : List α}
    (hm : s.length < m) (hn : s.length < n) : splitSubAux d m s = splitSubAux d n s := by
  induction m generalizing n s with
  | zero => omega
  | succ m ih =>
      cases n with
      | zero => omega
      | succ n =>
          simp only [splitSubAux]
          cases hf : findSub d s with
          | none => rfl
          | some k =>
              have hpos : 0 < d.length := List.length_pos_iff.2 hd
              have hle := findSub_le_length hf
              have hshort : (s.drop (k + d.length)).length < s.length := by
                simp only [List.length_drop]
                omega
              simp only
              rw [ih (s := s.drop (k + d.length)) (n := n) (by omega) (by omega)]

theorem splitSub_eq {d : List α} (hd : d ≠ []) (s : List α) :
    splitSub d s =
      match findSub d s with
      | none => [s]
      | some k => s.take k :: splitSub d (s.drop (k + d.length)) := by
  unfold splitSub
  rw [splitSubAux]
  cases hf : findSub d s with
  | none => rfl
  | some k =>
      have hpos : 0 < d.length := List.length_pos_iff.2 hd
      have hle := findSub_le_length hf
      simp only
      rw [splitSubAux_fuel hd (n := (s.drop (k + d.length)).length + 1)]
      · simp only [List.length_drop]
        omega
      · omega

theorem splitSub_ne_nil (d s : List α) : splitSub d s ≠ [] := by
  unfold splitSub
  rw [splitSubAux]
  split
  · simp
  · simp

theorem splitSub_singleton {d s b : List α} (hd : d ≠ []) (h : splitSub d s = [b]) : s = b := by
  rw [splitSub_eq hd] at h
  split at h
  · exact (List.cons.inj h).1
  · exact absurd (List.cons.inj h).2 (splitSub_ne_nil _ _)

/-- A text with exactly one cut. -/
theorem splitSub_pair {d s a b : List α} (hd : d ≠ []) (h : splitSub d s = [a, b]) :
    s = a ++ d ++ b := by
  rw [splitSub_eq hd] at h
  split at h
  · cases (List.cons.inj h).2
  · next k hk =>
      obtain ⟨rfl, hrest⟩ := List.cons.inj h
      rw [← splitSub_singleton hd hrest]
      exact (append_of_findSub hk).symm

theorem findSub_eq_none_iff {d s : List α} : findSub d s = none ↔ ¬ d <:+: s := by
  induction s with
  | nil => simp [findSub]
  | cons c s ih =>
      by_cases hp : d <+: c :: s
      · simp [findSub, hp, hp.isInfix]
      · simp [findSub, hp, ih, List.infix_cons_iff]

/-- Behind a text without its first character, a delimiter is found where it stands. -/
theorem findSub_append {c : α} {a : List α} (hc : c ∉ a) (d b : List α) :
    findSub (c :: d) (a ++ (c :: d ++ b)) = some a.length := by
  induction a with
  | nil => simp [findSub]
  | cons e a ih =>
      have hp : ¬ c :: d <+: e :: (a ++ (c :: d ++ b)) := by
        intro hp
        exact hc (List.mem_cons.2 (.inl (List.cons_prefix_cons.1 hp).1))
      rw [List.cons_append, findSub, if_neg hp, ih fun h => hc (List.mem_cons_of_mem e h)]
      rfl

theorem splitSub_singleton_iff {d s : List α} (hd : d ≠ []) : splitSub d s = [s] ↔ ¬ d <:+: s := by
  rw [splitSub_eq hd, ← findSub_eq_none_iff]
  cases findSub d s with
  | none => simp
  | some k => simp [splitSub_ne_nil]

theorem splitSub_pair_iff {d s a b : List α} (hd : d ≠ []) :
    splitSub d s = [a, b] ↔ findSub d s = some a.length ∧ s = a ++ (d ++ b) ∧ ¬ d <:+: b := by
  constructor
  · intro h
    have hs : s = a ++ (d ++ b) := by rw [splitSub_pair hd h, List.append_assoc]
    rw [splitSub_eq hd] at h
    split at h
    · cases (List.cons.inj h).2
    · next k hk =>
        obtain ⟨ha, hrest⟩ := List.cons.inj h
        have hlen : a.length = k := by
          have hle := findSub_le_length hk
          rw [← ha, List.length_take]
          omega
        have hb := splitSub_singleton hd hrest
        rw [hb] at hrest
        exact ⟨hlen ▸ hk, hs, (splitSub_singleton_iff hd).1 hrest⟩
  · rintro ⟨hfind, rfl, hb⟩
    rw [splitSub_eq hd, hfind]
    simp [(splitSub_singleton_iff hd).2 hb]

/-- Where `d` stands first from any place before that. -/
theorem findSub_drop {d s : List α} {k q : Nat} (h : findSub d s = some k) (hq : q ≤ k) :
    findSub d (s.drop q) = some (k - q) := by
  induction q generalizing s k with
  | zero => exact h
  | succ q ih =>
      obtain ⟨k, rfl⟩ := Nat.exists_eq_add_of_le' (Nat.lt_of_lt_of_le (Nat.succ_pos q) hq)
      cases s with
      | nil =>
          unfold findSub at h
          split at h <;> cases h
      | cons c s =>
          unfold findSub at h
          split at h
          · cases h
          · obtain ⟨j, hj, hjk⟩ := Option.map_eq_some_iff.1 h
            obtain rfl := Nat.succ.inj hjk
            rw [List.drop_succ_cons, ih hj (Nat.le_of_succ_le_succ hq), Nat.add_sub_add_right]

/-- The text before the first occurrence has none. -/
theorem not_infix_take {d s : List α} (hd : d ≠ []) {k : Nat} (h : findSub d s = some k) :
    ¬ d <:+: s.take k := by
  rintro ⟨a, b, hab⟩
  have hlen := congrArg List.length hab
  have hpos : 0 < d.length := List.length_pos_iff.2 hd
  have hle := findSub_le_length h
  simp only [List.length_append, List.length_take] at hlen
  have hprefix : d <+: s.drop a.length := by
    refine ⟨b ++ s.drop k, ?_⟩
    rw [← List.append_assoc]
    calc d ++ b ++ s.drop k = (a ++ d ++ b ++ s.drop k).drop a.length := by
          rw [List.append_assoc a, List.append_assoc a, List.drop_left]
      _ = s.drop a.length := by rw [hab, List.take_append_drop]
  -- An occurrence at `a.length` is found there at the latest.
  have hfirst : findSub d (s.drop a.length) = some 0 := by
    cases hs : s.drop a.length with
    | nil =>
        rw [hs, List.prefix_nil] at hprefix
        exact absurd hprefix hd
    | cons c t => rw [findSub, if_pos (hs ▸ hprefix)]
  rw [findSub_drop h (by omega)] at hfirst
  have hzero := Option.some.inj hfirst
  omega

/-- Cut after cut: every part is before an occurrence, but the last. -/
@[elab_as_elim]
theorem splitSub_induction {d : List α} (hd : d ≠ []) {P : List α → Prop}
    (last : ∀ s, findSub d s = none → P s)
    (cut : ∀ s k, findSub d s = some k → P (s.drop (k + d.length)) → P s) (s : List α) : P s := by
  induction hn : s.length using Nat.strong_induction_on generalizing s with
  | _ n ih =>
      cases hf : findSub d s with
      | none => exact last s hf
      | some k =>
          have hpos : 0 < d.length := List.length_pos_iff.2 hd
          have hle := findSub_le_length hf
          exact cut s k hf (ih _ (by rw [List.length_drop]; omega) _ rfl)

/-- The parts joined again are the text. -/
theorem intercalate_splitSub {d : List α} (hd : d ≠ []) (s : List α) : d.intercalate (splitSub d s) = s := by
  induction s using splitSub_induction hd with
  | last s hf => simp [splitSub_eq hd, hf]
  | cut s k hf ih =>
      obtain ⟨w, ws, hws⟩ := List.exists_cons_of_ne_nil (splitSub_ne_nil d (s.drop (k + d.length)))
      rw [splitSub_eq hd, hf]
      dsimp only
      rw [hws] at ih ⊢
      rw [List.intercalate_cons_cons, ih]
      exact append_of_findSub hf

/-- No part contains the delimiter. -/
theorem not_infix_of_mem_splitSub {d : List α} (hd : d ≠ []) {s w : List α} (hw : w ∈ splitSub d s) :
    ¬ d <:+: w := by
  induction s using splitSub_induction hd with
  | last s hf =>
      rw [splitSub_eq hd, hf] at hw
      obtain rfl := List.mem_singleton.1 hw
      exact findSub_eq_none_iff.1 hf
  | cut s k hf ih =>
      rw [splitSub_eq hd, hf] at hw
      rcases List.mem_cons.1 hw with rfl | hw
      · exact not_infix_take hd hf
      · exact ih hw

/-- The leftmost non-overlapping occurrences of `d`, counted from left to right; `skip` more characters belong to
the last one. -/
def countSubAux (d : List α) : Nat → List α → Nat
  | _, [] => 0
  | 0, c :: s => if d <+: c :: s then countSubAux d (d.length - 1) s + 1 else countSubAux d 0 s
  | skip + 1, _ :: s => countSubAux d skip s

def countSub (d s : List α) : Nat := countSubAux d 0 s

theorem countSubAux_skip (d : List α) (skip : Nat) (s : List α) : countSubAux d skip s = countSub d (s.drop skip) := by
  induction skip generalizing s with
  | zero => rfl
  | succ skip ih =>
      cases s with
      | nil => rfl
      | cons c s => exact ih s

theorem countSub_eq {d : List α} (hd : d ≠ []) (s : List α) :
    countSub d s =
      match findSub d s with
      | none => 0
      | some k => countSub d (s.drop (k + d.length)) + 1 := by
  obtain ⟨n, hn⟩ := Nat.exists_eq_succ_of_ne_zero (List.length_pos_iff.2 hd).ne'
  -- An occurrence is counted where it starts, and what it covers is passed over.
  induction s with
  | nil => rw [countSub, countSubAux, findSub, if_neg hd]
  | cons c s ih =>
      rw [countSub, countSubAux, findSub]
      split
      · dsimp only
        rw [countSubAux_skip, Nat.zero_add, hn, List.drop_succ_cons]
        rfl
      · rw [show countSubAux d 0 s = countSub d s from rfl, ih]
        cases findSub d s with
        | none => rfl
        | some k =>
            dsimp only [Option.map_some]
            rw [Nat.add_right_comm, List.drop_succ_cons]

/-- There is one part more than occurrences. -/
theorem length_splitSub {d : List α} (hd : d ≠ []) (s : List α) : (splitSub d s).length = countSub d s + 1 := by
  induction s using splitSub_induction hd with
  | last s hf => rw [splitSub_eq hd, countSub_eq hd, hf]; rfl
  | cut s k hf ih =>
      rw [splitSub_eq hd, countSub_eq hd, hf]
      exact congrArg (· + 1) ih

/-! ### Delimiters that end in a mark -/

variable {q : α} {x : List α}

theorem findSub_no_mark {s : List α} (hs : q ∉ s) : findSub (x ++ [q]) s = none := by
  induction s with
  | nil => simp [findSub]
  | cons c s ih =>
      have hp : ¬ x ++ [q] <+: c :: s := fun hp => hs (hp.subset (by simp))
      have hs' : q ∉ s := fun h => hs (by simp [h])
      simp [findSub, hp, ih hs']

omit [DecidableEq α] in
/-- Two texts that agree up to the first mark agree on what precedes it. -/
theorem append_mark_inj {A B s t : List α} (hA : q ∉ A) (hB : q ∉ B)
    (h : A ++ q :: s = B ++ q :: t) : A = B ∧ s = t := by
  induction A generalizing B with
  | nil =>
      cases B with
      | nil => simpa using h
      | cons b B =>
          simp only [List.nil_append, List.cons_append, List.cons.injEq] at h
          exact absurd (by simp [h.1]) hB
  | cons a A ih =>
      cases B with
      | nil =>
          simp only [List.nil_append, List.cons_append, List.cons.injEq] at h
          exact absurd (by simp [h.1]) hA
      | cons b B =>
          simp only [List.cons_append, List.cons.injEq] at h
          have hA' : q ∉ A := fun hm => hA (by simp [hm])
          have hB' : q ∉ B := fun hm => hB (by simp [hm])
          obtain ⟨hAB, hst⟩ := ih hA' hB' h.2
          exact ⟨by rw [h.1, hAB], hst⟩

omit [DecidableEq α] in
/-- Where a text with a known first mark can be cut at a mark. -/
theorem append_mark_cases {w A s t : List α} (hA : q ∉ A) (h : w ++ q :: t = A ++ q :: s) :
    (w = A ∧ t = s) ∨ ∃ v, w = A ++ q :: v ∧ s = v ++ q :: t := by
  induction A generalizing w with
  | nil =>
      cases w with
      | nil => exact .inl (by simpa using h)
      | cons b w =>
          obtain ⟨rfl, rfl⟩ : b = q ∧ w ++ q :: t = s := by simpa using h
          exact .inr ⟨w, rfl, rfl⟩
  | cons a A ih =>
      cases w with
      | nil =>
          obtain ⟨rfl, -⟩ : q = a ∧ t = A ++ q :: s := by simpa using h
          exact absurd (by simp) hA
      | cons b w =>
          obtain ⟨rfl, htail⟩ : b = a ∧ w ++ q :: t = A ++ q :: s := by simpa using h
          rcases ih (fun hm => hA (by simp [hm])) htail with ⟨rfl, rfl⟩ | ⟨v, rfl, rfl⟩
          · exact .inl ⟨rfl, rfl⟩
          · exact .inr ⟨v, rfl, rfl⟩

omit [DecidableEq α] in
theorem mark_prefix_iff {A s : List α} (hx : q ∉ x) (hA : q ∉ A) :
    x ++ [q] <+: A ++ q :: s ↔ x = A := by
  constructor
  · rintro ⟨t, ht⟩
    rw [List.append_assoc, List.singleton_append] at ht
    exact (append_mark_inj hx hA ht).1
  · rintro rfl
    exact ⟨s, by simp⟩

/-- Whether an occurrence ends at the first mark of a text depends on what stands just before it. -/
theorem findSub_mark {A s : List α} (hx : q ∉ x) (hA : q ∉ A) :
    findSub (x ++ [q]) (A ++ q :: s) =
      if x <:+ A then some (A.length - x.length)
      else (findSub (x ++ [q]) s).map (fun k => A.length + 1 + k) := by
  induction A with
  | nil =>
      have hpre : x ++ [q] <+: q :: s ↔ x = [] := mark_prefix_iff (A := []) hx (by simp)
      by_cases hnil : x = []
      · simp [findSub, hnil]
      · have hsuf : ¬ x <:+ [] := by simpa using hnil
        simp only [List.nil_append, findSub, hpre, hnil, hsuf, if_false, List.length_nil]
        congr 1
        funext k
        omega
  | cons a A ih =>
      have hA' : q ∉ A := fun h => hA (by simp [h])
      have hpre : x ++ [q] <+: a :: (A ++ q :: s) ↔ x = a :: A := by
        simpa using mark_prefix_iff (s := s) hx hA
      -- The occurrence starts here, or further on, or there is none that ends at the mark.
      by_cases heq : x = a :: A
      · have hsuf : x <:+ a :: A := heq ▸ List.suffix_refl _
        simp only [List.cons_append, findSub, hpre.2 heq, if_true, hsuf]
        simp [heq]
      · have hsuf : x <:+ a :: A ↔ x <:+ A := by simp [List.suffix_cons_iff, heq]
        simp only [List.cons_append, findSub, hpre, heq, if_false, ih hA', hsuf]
        by_cases hin : x <:+ A
        · have hle := hin.length_le
          simp only [hin, if_true, Option.map_some, List.length_cons, Option.some.injEq]
          omega
        · simp only [hin, if_false, Option.map_map, List.length_cons]
          congr 1
          funext k
          simp only [Function.comp]
          omega

theorem splitSub_no_mark {s : List α} (hs : q ∉ s) : splitSub (x ++ [q]) s = [s] := by
  rw [splitSub_eq (by simp), findSub_no_mark hs]

/-- At the first mark of a text, splitting either cuts or passes on. -/
theorem splitSub_mark {A s : List α} (hx : q ∉ x) (hA : q ∉ A) :
    splitSub (x ++ [q]) (A ++ q :: s) =
      if x <:+ A then A.take (A.length - x.length) :: splitSub (x ++ [q]) s
      else (splitSub (x ++ [q]) s).modifyHead (fun p => A ++ q :: p) := by
  have hdrop : ∀ n, (A ++ q :: s).drop (A.length + 1 + n) = s.drop n := by
    intro n
    rw [Nat.add_assoc, List.drop_length_add_append, Nat.add_comm 1 n, List.drop_succ_cons]
  rw [splitSub_eq (by simp), findSub_mark hx hA]
  by_cases hsuf : x <:+ A
  · have hle := hsuf.length_le
    have hend : A.length - x.length + (x ++ [q]).length = A.length + 1 + 0 := by
      simp only [List.length_append, List.length_cons, List.length_nil]
      omega
    simp only [hsuf, if_true, hend, hdrop, List.drop_zero,
      List.take_append_of_le_length (Nat.sub_le _ _)]
  · simp only [hsuf, if_false]
    rw [splitSub_eq (by simp)]
    cases findSub (x ++ [q]) s with
    | none => rfl
    | some k =>
        have htake : (A ++ q :: s).take (A.length + 1 + k) = A ++ q :: s.take k := by
          rw [Nat.add_assoc, List.take_length_add_append, Nat.add_comm 1 k, List.take_succ_cons]
        simp only [Option.map_some, htake, Nat.add_assoc (A.length + 1), hdrop, List.modifyHead_cons]

/-- A delimiter behind a text without it is found where it stands. -/
theorem findSub_last {a : List α} (hx : q ∉ x) (ha : ¬ x ++ [q] <:+: a) :
    findSub (x ++ [q]) (a ++ (x ++ [q])) = some a.length := by
  induction a with
  | nil =>
      cases hd : x ++ [q] with
      | nil => simp at hd
      | cons c d => simp [findSub]
  | cons e a ih =>
      have hp : ¬ x ++ [q] <+: (e :: a) ++ (x ++ [q]) := by
        intro hp
        rcases List.prefix_or_prefix_of_prefix hp (List.prefix_append (e :: a) _) with hin | ⟨u, hu⟩
        · exact ha hin.isInfix
        · -- the occurrence would end inside the last one, at a character of `x`
          rcases List.eq_nil_or_concat u with rfl | ⟨v, c, rfl⟩
          · exact ha ⟨[], [], by rw [← hu]; simp⟩
          · rw [List.concat_eq_append] at hu
            obtain ⟨hv, hc⟩ := List.append_inj' ((List.append_assoc _ _ _).trans hu) rfl
            obtain rfl : c = q := List.singleton_inj.1 hc
            have hprefix : v ++ [c] <+: x ++ [c] := by
              refine (List.prefix_append_right_inj (e :: a)).1 ?_
              rw [hu]
              exact hp
            have hlen : (v ++ [c]).length ≤ x.length := by
              rw [← hv]
              simp
            exact hx ((List.prefix_of_prefix_length_le hprefix (List.prefix_append x [c]) hlen).subset (by simp))
      rw [List.cons_append] at hp ⊢
      rw [findSub, if_neg hp, ih fun hin => ha (List.infix_cons hin)]
      rfl

/-- A text is cut into a part and nothing when it ends in the delimiter and has no other. -/
theorem splitSub_last_iff {s : List α} (hx : q ∉ x) :
    (∃ a, splitSub (x ++ [q]) s = [a, []]) ↔ ∃ a, s = a ++ (x ++ [q]) ∧ ¬ x ++ [q] <:+: a := by
  have hd : x ++ [q] ≠ [] := by simp
  refine exists_congr fun a => ?_
  constructor
  · intro h
    have hs := splitSub_pair hd h
    rw [List.append_nil] at hs
    exact ⟨hs, not_infix_of_mem_splitSub hd (by rw [h]; simp)⟩
  · rintro ⟨rfl, ha⟩
    refine (splitSub_pair_iff hd).2 ⟨findSub_last hx ha, by simp, fun hin => ?_⟩
    exact hd (List.eq_nil_of_infix_nil hin)

end Substring

end Text
end Raiezau
