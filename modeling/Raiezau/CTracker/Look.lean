import Raiezau.JavaClient.LookRequest
import Raiezau.CTracker.Reachable

/-!
# Look — what a search request of the Java client selects

A criterion is the token `<field><op>"<text>"`.  Each of the six processors splits it at its own
delimiter, an operator followed by a quote.  The token has two quotes, so an occurrence of the
delimiter ends at the opening quote, when the operator ends the head of the token, or at the closing
one, when it ends the text; `act` tabulates the four cases.  `Selects` is what a pass over the list
leaves, and composes.
-/

namespace Raiezau
namespace CTracker

open Memory CUtil Text Assoc JavaClient

variable {st : Tracker} {c f : Addr}

/-! ## Passes over the list of files -/

/-- All addresses of the list are registered files. -/
def AllFiles (st : Tracker) (l : List Addr) : Prop := ∀ f ∈ l, ∃ x, st.file f = some x

/-- `l'` are the files of `l` that pass a test, in some order. -/
structure Selects (st : Tracker) (l : List Addr) (p : File → Prop) (l' : List Addr) : Prop where
  nodup : l.Nodup → l'.Nodup
  mem : ∀ {f}, f ∈ l' ↔ f ∈ l ∧ ∃ x ∈ st.file f, p x

theorem Selects.refl {l : List Addr} (hl : AllFiles st l) : Selects st l (fun _ => True) l where
  nodup := fun h => h
  mem := by
    intro f
    refine ⟨fun hf => ⟨hf, ?_⟩, And.left⟩
    obtain ⟨x, hx⟩ := hl f hf
    exact ⟨x, hx, trivial⟩

theorem Selects.allFiles {l l' : List Addr} {p : File → Prop} (h : Selects st l p l') :
    AllFiles st l' := by
  intro f hf
  obtain ⟨-, x, hx, -⟩ := h.mem.1 hf
  exact ⟨x, hx⟩

theorem Selects.trans {l l₁ l₂ : List Addr} {p q : File → Prop} (h₁ : Selects st l p l₁)
    (h₂ : Selects st l₁ q l₂) : Selects st l (fun x => p x ∧ q x) l₂ where
  nodup := fun h => h₂.nodup (h₁.nodup h)
  mem := by
    intro f
    rw [h₂.mem, h₁.mem]
    constructor
    · rintro ⟨⟨hf, x, hx, hp⟩, y, hy, hq⟩
      obtain rfl := Option.some.inj (hx.symm.trans hy)
      exact ⟨hf, x, hx, hp, hq⟩
    · rintro ⟨hf, x, hx, hp, hq⟩
      exact ⟨⟨hf, x, hx, hp⟩, x, hx, hq⟩

theorem Selects.congr {l l' : List Addr} {p q : File → Prop} (h : Selects st l p l')
    (hpq : ∀ x, p x ↔ q x) : Selects st l q l' where
  nodup := h.nodup
  mem := by
    intro f
    rw [h.mem]
    simp only [hpq]

/-- Steps that each keep the files of one test. -/
theorem foldlM_selects {α : Type} {g : List Addr → α → Option (List Addr)} {p : α → File → Prop} {as : List α}
    (hone : ∀ a ∈ as, ∀ l, AllFiles st l → ∃ l', g l a = some l' ∧ Selects st l (p a) l') {l : List Addr}
    (hl : AllFiles st l) :
    ∃ l', as.foldlM g l = some l' ∧ Selects st l (fun x => ∀ a ∈ as, p a x) l' := by
  -- Each step starts from what the one before it kept.
  induction as generalizing l with
  | nil => exact ⟨l, rfl, (Selects.refl hl).congr fun _ => by simp⟩
  | cons a as ih =>
      obtain ⟨l₁, heq₁, hsel₁⟩ := hone a List.mem_cons_self l hl
      obtain ⟨l₂, heq₂, hsel₂⟩ := ih (fun b hb => hone b (List.mem_cons_of_mem a hb)) hsel₁.allFiles
      refine ⟨l₂, by simp [List.foldlM_cons, heq₁, heq₂], (hsel₁.trans hsel₂).congr fun x => ?_⟩
      rw [List.forall_mem_cons]

theorem processList_foldlM {l : List Addr} (hl : AllFiles st l) (test : File → Bool) (acc : List Addr) :
    ∃ r : List Addr, r.Sublist l ∧ (∀ {f}, f ∈ r ↔ f ∈ l ∧ ∃ x ∈ st.file f, test x = true) ∧
      l.foldlM (fun newList f => do
        let x ← st.file f
        pure (if test x then f :: newList else newList)) acc = some (r.reverse ++ acc) := by
  -- The files that pass are put behind those kept so far.
  induction l generalizing acc with
  | nil => exact ⟨[], List.Sublist.slnil, by simp, rfl⟩
  | cons g l ih =>
      obtain ⟨x, hx⟩ := hl g List.mem_cons_self
      have hl' : AllFiles st l := fun f hf => hl f (List.mem_cons_of_mem _ hf)
      cases ht : test x with
      | true =>
          obtain ⟨r, hsub, hmem, heq⟩ := ih hl' (g :: acc)
          refine ⟨g :: r, hsub.cons_cons g, ?_, ?_⟩
          · intro f
            rw [List.mem_cons, hmem, List.mem_cons]
            constructor
            · rintro (rfl | ⟨hf, hx'⟩)
              · exact ⟨.inl rfl, x, hx, ht⟩
              · exact ⟨.inr hf, hx'⟩
            · rintro ⟨rfl | hf, hx'⟩
              · exact .inl rfl
              · exact .inr ⟨hf, hx'⟩
          · simpa [List.foldlM_cons, hx, ht] using heq
      | false =>
          obtain ⟨r, hsub, hmem, heq⟩ := ih hl' acc
          refine ⟨r, hsub.cons g, ?_, ?_⟩
          · intro f
            rw [hmem, List.mem_cons]
            constructor
            · rintro ⟨hf, hx'⟩
              exact ⟨.inr hf, hx'⟩
            · rintro ⟨rfl | hf, y, hy, hty⟩
              · obtain rfl := Option.some.inj (hx.symm.trans hy)
                rw [ht] at hty
                cases hty
              · exact ⟨hf, y, hy, hty⟩
          · simpa [List.foldlM_cons, hx, ht] using heq

theorem processList_spec {l : List Addr} (hl : AllFiles st l) (test : File → Bool) :
    ∃ l', processList st l test = some l' ∧ Selects st l (fun x => test x = true) l' := by
  obtain ⟨r, hsub, hmem, heq⟩ := processList_foldlM hl test []
  refine ⟨r.reverse, by simpa [processList] using heq, fun hnd => ?_, ?_⟩
  · exact List.nodup_reverse.2 (hsub.nodup hnd)
  · intro f
    rw [List.mem_reverse]
    exact hmem

/-! ## One processor on one token -/

/-- The test a processor for `x"` runs on a token with head `A`, if it runs one. -/
def hit (x : CString) (code : CString → Option (CString → File → Bool)) (A : CString) :
    Option (CString → File → Bool) :=
  if x <:+ A then code (A.take (A.length - x.length)) else none

/-- A processor without a test for the token keeps every file. -/
def verdict (test : Option (CString → File → Bool)) (T : CString) (x : File) : Bool :=
  match test with
  | none => true
  | some test => test T x

/-- What a processor does with the token `A"T"`: the test it filters with, or a fault. -/
def act (x : CString) (code : CString → Option (CString → File → Bool)) (A T : CString) :
    Option (File → Bool) :=
  if x <:+ T then
    -- three parts leave the list as it is; two parts whose second is empty fault
    if x <:+ A then some fun _ => true else none
  else some (verdict (hit x code A) T)

/-- The outcome `r` of filtering `l`: a fault, or the files that pass the test. -/
def Filters (st : Tracker) (l : List Addr) (test : Option (File → Bool)) (r : Option (List Addr)) :
    Prop :=
  match test with
  | none => r = none
  | some test => ∃ l', r = some l' ∧ Selects st l (fun x => test x = true) l'

theorem stringSplit2_token {x A T : CString} (hx : '"' ∉ x) (hA : '"' ∉ A) (hT : '"' ∉ T) :
    stringSplit2 (A ++ '"' :: (T ++ ['"'])) (x ++ ['"']) =
      if x <:+ A then
        A.take (A.length - x.length) ::
          if x <:+ T then [T.take (T.length - x.length), []] else [T ++ ['"']]
      else if x <:+ T then [A ++ '"' :: T.take (T.length - x.length), []]
      else [A ++ '"' :: (T ++ ['"'])] := by
  have hnil : splitSub (x ++ ['"']) [] = [[]] := splitSub_no_mark (q := '"') (by simp)
  rw [stringSplit2_eq_splitSub, splitSub_mark hx hA, splitSub_mark hx hT, hnil]
  by_cases hxA : x <:+ A <;> by_cases hxT : x <:+ T <;> simp [hxA, hxT]

theorem criterionProcessor_token {x A T : CString} (hx : '"' ∉ x) (hA : '"' ∉ A) (hT : '"' ∉ T)
    {l : List Addr} (hl : AllFiles st l) (code : CString → Option (CString → File → Bool)) :
    Filters st l (act x code A T)
      (criterionProcessor (x ++ ['"']) code st (A ++ '"' :: (T ++ ['"'])) l) := by
  have hkeep : Filters st l (some fun _ => true) (some l) :=
    ⟨l, rfl, (Selects.refl hl).congr fun _ => by simp⟩
  rw [criterionProcessor, stringSplit2_token hx hA hT, act]
  -- The delimiter may end the text in the quotes as well: then the token falls into three parts.
  by_cases hxT : x <:+ T
  · by_cases hxA : x <:+ A
    · simpa [hxA, hxT] using hkeep
    · simp [hxA, hxT, strstripc, Filters]
  · by_cases hxA : x <:+ A
    · have hstrip : strstripc (T ++ ['"']) '"' = some T := by
        simp [strstripc]
      simp only [hxA, hxT, if_true, if_false, hit, hstrip, Option.bind_eq_bind, Option.bind_some]
      cases code (A.take (A.length - x.length)) with
      | none => exact hkeep
      | some test => exact processList_spec hl (test T)
    · simp only [hxA, hxT, if_false, hit]
      exact hkeep

/-! ## All processors on one token -/

def andTest : Option (File → Bool) → Option (File → Bool) → Option (File → Bool)
  | some t, some u => some fun x => t x && u x
  | _, _ => none

theorem Filters.bind {l : List Addr} {t u : Option (File → Bool)} {r : Option (List Addr)}
    {k : List Addr → Option (List Addr)} (hr : Filters st l t r)
    (hk : ∀ {l'}, AllFiles st l' → Filters st l' u (k l')) : Filters st l (andTest t u) (r.bind k) := by
  cases t with
  | none =>
      obtain rfl : r = none := hr
      rfl
  | some t =>
      obtain ⟨l₁, rfl, hsel₁⟩ := hr
      have hrest := hk hsel₁.allFiles
      cases u with
      | none => exact hrest
      | some u =>
          obtain ⟨l₂, heq, hsel₂⟩ := hrest
          refine ⟨l₂, heq, (hsel₁.trans hsel₂).congr fun x => ?_⟩
          simp

/-- The operators in the order their processors run. -/
def tokenAct (A T : CString) : Option (File → Bool) :=
  andTest (act "!=".toList neqCode A T) <|
    andTest (act ">=".toList geqCode A T) <|
      andTest (act "<=".toList leqCode A T) <|
        andTest (act "=".toList eqCode A T) <|
          andTest (act "<".toList ltCode A T) (act ">".toList gtCode A T)

theorem processCriterion_token {A T : CString} (hA : '"' ∉ A) (hT : '"' ∉ T) {l : List Addr}
    (hl : AllFiles st l) :
    Filters st l (tokenAct A T) (processCriterion st (A ++ '"' :: (T ++ ['"'])) l) := by
  refine (criterionProcessor_token (by decide) hA hT hl neqCode).bind fun hl => ?_
  refine (criterionProcessor_token (by decide) hA hT hl geqCode).bind fun hl => ?_
  refine (criterionProcessor_token (by decide) hA hT hl leqCode).bind fun hl => ?_
  refine (criterionProcessor_token (by decide) hA hT hl eqCode).bind fun hl => ?_
  refine (criterionProcessor_token (by decide) hA hT hl ltCode).bind fun hl => ?_
  exact criterionProcessor_token (by decide) hA hT hl gtCode

/-! ## What a criterion amounts to -/

/-- Endings of a text that are the delimiter of a processor which has none at the head. -/
def faultyEndings : List CString := ["!=".toList, ">=".toList, "<=".toList, "<".toList, ">".toList]

def EndsBadly (T : CString) : Prop := ∃ x ∈ faultyEndings, x <:+ T

instance (T : CString) : Decidable (EndsBadly T) :=
  inferInstanceAs (Decidable (∃ x ∈ faultyEndings, x <:+ T))

theorem act_free {x A T : CString} {code : CString → Option (CString → File → Bool)}
    (hT : ¬ x <:+ T) : act x code A T = some (verdict (hit x code A) T) := by
  simp [act, hT]

/-- A text that ends in no operator. -/
def Plain (T : CString) : Prop := ¬ EndsBadly T ∧ ¬ "=".toList <:+ T

/-- What a file has to pass for a token whose text is plain. -/
def tokenTest (A T : CString) (x : File) : Bool :=
  verdict (hit "!=".toList neqCode A) T x &&
    (verdict (hit ">=".toList geqCode A) T x &&
      (verdict (hit "<=".toList leqCode A) T x &&
        (verdict (hit "=".toList eqCode A) T x &&
          (verdict (hit "<".toList ltCode A) T x && verdict (hit ">".toList gtCode A) T x))))

theorem tokenAct_plain {A T : CString} (h : Plain T) : tokenAct A T = some (tokenTest A T) := by
  obtain ⟨hbad, heq⟩ := h
  have hfree : ∀ x ∈ faultyEndings, ¬ x <:+ T := fun x hx hsuf => hbad ⟨x, hx, hsuf⟩
  rw [tokenAct, act_free (hfree _ (by decide)), act_free (hfree _ (by decide)),
    act_free (hfree _ (by decide)), act_free heq, act_free (hfree _ (by decide)),
    act_free (hfree _ (by decide))]
  rfl

theorem none_andTest (t : Option (File → Bool)) : andTest none t = none := rfl

theorem andTest_none (t : Option (File → Bool)) : andTest t none = none := by
  cases t <;> rfl

/-- A processor whose delimiter closes the token but does not open it faults. -/
theorem act_fault {x A T : CString} {code : CString → Option (CString → File → Bool)}
    (hA : ¬ x <:+ A) (hT : x <:+ T) : act x code A T = none := by
  simp [act, hA, hT]

theorem tokenAct_faults {A T : CString} (hA : ∀ x ∈ faultyEndings, ¬ x <:+ A) (hT : EndsBadly T) :
    tokenAct A T = none := by
  obtain ⟨x, hx, hsuf⟩ := hT
  have hact : ∀ code, act x code A T = none := fun code => act_fault (hA x hx) hsuf
  simp only [faultyEndings, List.mem_cons, List.not_mem_nil, or_false] at hx
  unfold tokenAct
  rcases hx with rfl | rfl | rfl | rfl | rfl <;> simp only [hact, none_andTest, andTest_none]

/-- The integer comparison an operator stands for. -/
def Compares : CriterionOP → Int → Int → Prop
  | .eq, m, n => m = n
  | .ne, m, n => m ≠ n
  | .lt, m, n => m < n
  | .le, m, n => m ≤ n
  | .gt, m, n => n < m
  | .ge, m, n => n ≤ m

/-- The usual meaning of a criterion. -/
def Satisfied (x : File) : LookCall → Prop
  | .addFilename filename => x.filename = filename
  | .addKey key => x.md5Str = key
  | .addSizeCriterion op size => Compares op x.length size

/-- What the tracker makes of a criterion it does not fault on. -/
def Applied (x : File) : LookCall → Prop
  | .addFilename filename => "=".toList <:+ filename ∨ x.filename = filename
  | .addKey _ => True
  | .addSizeCriterion op size => Compares op x.length size

theorem sizeTest_iff {r : Nat → Nat → Bool} {size : Int} (h₀ : 0 ≤ size) (h₁ : size < 2 ^ 31)
    (x : File) : sizeTest r (integerToString size) x = r x.length size.toNat := by
  have hval : toUInt64 (size.toNat : Int) = size.toNat := by
    unfold toUInt64
    omega
  rw [sizeTest, integerToString_of_nonneg h₀, atol_decimal (by omega), hval]

/-- The relation the tracker tests for an operator. -/
def sizeRelation : CriterionOP → Nat → Nat → Bool
  | .eq, m, n => m = n
  | .ne, m, n => m ≠ n
  | .lt, m, n => m < n
  | .le, m, n => m ≤ n
  | .gt, m, n => n < m
  | .ge, m, n => n ≤ m

/-- Of the processors whose delimiter ends the head, one knows the field in front of it. -/
theorem tokenTest_size (op : CriterionOP) (size : Int) (T : CString) (x : File) :
    tokenTest (Criterion.criterionSize op size).head T x = sizeTest (sizeRelation op) T x := by
  cases op with
  | gt => rfl
  | eq => exact Bool.and_true (sizeTest (sizeRelation .eq) T x)
  | ne => exact Bool.and_true (sizeTest (sizeRelation .ne) T x)
  | lt => exact Bool.and_true (sizeTest (sizeRelation .lt) T x)
  | le => exact Bool.and_true (sizeTest (sizeRelation .le) T x)
  | ge => exact Bool.and_true (sizeTest (sizeRelation .ge) T x)

theorem sizeRelation_iff {op : CriterionOP} {size : Int} (h₀ : 0 ≤ size) (n : Nat) :
    sizeRelation op n size.toNat = true ↔ Compares op n size := by
  have hnat : (size.toNat : Int) = size := Int.toNat_of_nonneg h₀
  cases op <;> simp only [sizeRelation, Compares, decide_eq_true_eq] <;> omega

theorem tokenTest_filename (T : CString) (x : File) :
    tokenTest (Criterion.criterionFilename T).head T x = true ↔ x.filename = T := by
  have htest : tokenTest (Criterion.criterionFilename T).head T x = decide (T = x.filename) :=
    Bool.and_true (decide (T = x.filename))
  rw [htest, decide_eq_true_eq, eq_comm]

theorem tokenTest_key (T : CString) (x : File) :
    tokenTest (Criterion.criterionKey T).head T x = true := rfl

/-! ## One criterion -/

/-- The texts a client may search for. -/
def TextOk (T : CString) : Prop :=
  T ≠ [] ∧ ∀ ch ∈ T, isspace ch = false ∧ ch ≠ '"' ∧ ch ≠ '[' ∧ ch ≠ ']'

def LookCallOk : LookCall → Prop
  | .addFilename filename => TextOk filename
  | .addKey key => TextOk key
  | .addSizeCriterion _ size => 0 ≤ size ∧ size < 2 ^ 31

instance (T : CString) : Decidable (TextOk T) :=
  inferInstanceAs (Decidable (T ≠ [] ∧ ∀ ch ∈ T, isspace ch = false ∧ ch ≠ '"' ∧ ch ≠ '[' ∧ ch ≠ ']'))

instance : ∀ call, Decidable (LookCallOk call)
  | .addFilename filename => inferInstanceAs (Decidable (TextOk filename))
  | .addKey key => inferInstanceAs (Decidable (TextOk key))
  | .addSizeCriterion _ size => inferInstanceAs (Decidable (0 ≤ size ∧ size < 2 ^ 31))

/-- The tracker can take the criterion: its text ends in none of the faulty ways. -/
def Harmless (call : LookCall) : Prop := ¬ EndsBadly call.criterion.text

instance (call : LookCall) : Decidable (Harmless call) :=
  inferInstanceAs (Decidable (¬ EndsBadly call.criterion.text))

theorem decimal_plain (n : Nat) : Plain (decimal n) := by
  have hfree : ∀ x : CString, (∃ c ∈ x, c.isDigit = false) → ¬ x <:+ decimal n := by
    rintro x ⟨c, hc, hnd⟩ hsuf
    have hd := isDigit_of_mem_decimal (hsuf.subset hc)
    rw [hnd] at hd
    cases hd
  refine ⟨?_, hfree _ (by decide)⟩
  rintro ⟨x, hx, hsuf⟩
  have hnondigit : ∀ x ∈ faultyEndings, ∃ c ∈ x, c.isDigit = false := by decide
  exact hfree x (hnondigit x hx) hsuf

/-- A text ending in an equals sign only: its closing quote makes three parts of the token. -/
theorem tokenAct_eq_ending {A T : CString} (hA : ∀ x ∈ faultyEndings, ¬ x <:+ A)
    (heqA : "=".toList <:+ A) (hbad : ¬ EndsBadly T) (heq : "=".toList <:+ T) :
    ∃ t, tokenAct A T = some t ∧ ∀ x, t x = true := by
  have hfree : ∀ x ∈ faultyEndings, ∀ code, act x code A T = some fun _ => true := by
    intro x hx code
    rw [act_free fun hsuf => hbad ⟨x, hx, hsuf⟩, hit, if_neg (hA x hx)]
    rfl
  have hthree : act "=".toList eqCode A T = some fun _ => true := by
    rw [act, if_pos heq, if_pos heqA]
  refine ⟨fun _ => true, ?_, fun _ => rfl⟩
  rw [tokenAct, hfree _ (by decide), hfree _ (by decide), hfree _ (by decide), hthree,
    hfree _ (by decide), hfree _ (by decide)]
  rfl

/-- A name or key criterion: the heads `filename=` and `key=` end in no other delimiter. -/
theorem tokenAct_text {A T : CString} (hA : ∀ x ∈ faultyEndings, ¬ x <:+ A)
    (heqA : "=".toList <:+ A) (hbad : ¬ EndsBadly T) :
    ∃ t, tokenAct A T = some t ∧
      ∀ x, t x = true ↔ "=".toList <:+ T ∨ tokenTest A T x = true := by
  by_cases heq : "=".toList <:+ T
  · obtain ⟨t, ht, hall⟩ := tokenAct_eq_ending hA heqA hbad heq
    exact ⟨t, ht, fun x => by simp only [hall, heq, true_or]⟩
  · exact ⟨_, tokenAct_plain ⟨hbad, heq⟩, fun x => by simp only [heq, false_or]⟩

theorem tokenAct_criterion {call : LookCall} (hok : LookCallOk call) (hharm : Harmless call) :
    ∃ t, tokenAct call.criterion.head call.criterion.text = some t ∧
      ∀ x, t x = true ↔ Applied x call := by
  cases call with
  | addFilename filename =>
      obtain ⟨t, ht, htest⟩ := tokenAct_text (A := "filename=".toList) (by decide) (by decide) hharm
      refine ⟨t, ht, fun x => ?_⟩
      rw [htest, Applied]
      exact or_congr_right (tokenTest_filename filename x)
  | addKey key =>
      obtain ⟨t, ht, htest⟩ := tokenAct_text (A := "key=".toList) (by decide) (by decide) hharm
      refine ⟨t, ht, fun x => ?_⟩
      rw [htest]
      exact iff_of_true (.inr (tokenTest_key key x)) trivial
  | addSizeCriterion op size =>
      have htext : (LookCall.addSizeCriterion op size).criterion.text = decimal size.toNat :=
        integerToString_of_nonneg hok.1
      have hplain : Plain (LookCall.addSizeCriterion op size).criterion.text :=
        htext ▸ decimal_plain size.toNat
      refine ⟨_, tokenAct_plain hplain, fun x => ?_⟩
      have htest := tokenTest_size op size (integerToString size) x
      rw [sizeTest_iff hok.1 hok.2] at htest
      exact (iff_of_eq (congrArg (· = true) htest)).trans (sizeRelation_iff hok.1 x.length)

theorem tokenAct_criterion_faults {call : LookCall} (hok : LookCallOk call)
    (hbad : ¬ Harmless call) : tokenAct call.criterion.head call.criterion.text = none := by
  have hends : EndsBadly call.criterion.text := not_not.1 hbad
  cases call with
  | addFilename filename => exact tokenAct_faults (A := "filename=".toList) (by decide) hends
  | addKey key => exact tokenAct_faults (A := "key=".toList) (by decide) hends
  | addSizeCriterion op size =>
      have htext : (LookCall.addSizeCriterion op size).criterion.text = decimal size.toNat :=
        integerToString_of_nonneg hok.1
      exact absurd (htext ▸ hends) (decimal_plain size.toNat).1

/-! ## A whole request -/

theorem head_chars (c : Criterion) : ∀ ch ∈ c.head, ch ≠ '"' ∧ ch ≠ ' ' ∧ ch ≠ ']' := by
  have hall : ∀ (field : CriterionField) (op : CriterionOP),
      ∀ ch ∈ field.toString ++ op.toString, ch ≠ '"' ∧ ch ≠ ' ' ∧ ch ≠ ']' := by
    intro field op
    cases field <;> cases op <;> decide
  exact hall c.field c.op

/-- The text of a criterion has no quote, and no character that ends the token or the list. -/
theorem text_chars {call : LookCall} (hok : LookCallOk call) :
    ∀ ch ∈ call.criterion.text, ch ≠ '"' ∧ ch ≠ ' ' ∧ ch ≠ ']' := by
  have htext : ∀ {T : CString}, TextOk T → ∀ ch ∈ T, ch ≠ '"' ∧ ch ≠ ' ' ∧ ch ≠ ']' := by
    intro T hT ch hch
    obtain ⟨hsp, hq, -, hb⟩ := hT.2 ch hch
    refine ⟨hq, ?_, hb⟩
    rintro rfl
    cases hsp
  cases call with
  | addFilename filename => exact htext hok
  | addKey key => exact htext hok
  | addSizeCriterion op size =>
      intro ch hch
      have hdigit : ch.isDigit = true := by
        have hmem : ch ∈ integerToString size := hch
        rw [integerToString_of_nonneg hok.1] at hmem
        exact isDigit_of_mem_decimal hmem
      refine ⟨?_, ?_, ?_⟩ <;> rintro rfl <;> cases hdigit

theorem token_chars {call : LookCall} (hok : LookCallOk call) :
    ∀ ch ∈ call.criterion.toString, ch ≠ ' ' ∧ ch ≠ ']' := by
  intro ch hch
  simp only [Criterion.toString, List.mem_append, List.mem_cons, List.not_mem_nil, or_false] at hch
  rcases hch with hch | rfl | hch | rfl
  · exact (head_chars _ ch hch).2
  · decide
  · exact (text_chars hok ch hch).2
  · decide

theorem token_ne_nil (c : Criterion) : c.toString ≠ [] := by
  simp [Criterion.toString]

/-- The tracker cuts the request into the criteria it was built from. -/
theorem stringSplit_request {calls : List LookCall} (hok : ∀ call ∈ calls, LookCallOk call) :
    stringSplit (LookRequest.build calls).toString [' '] =
      calls.map fun call => call.criterion.toString := by
  rw [LookRequest.build_eq, LookRequest.toString, List.map_map]
  refine stringSplit_space_intercalate ?_
  intro w hw
  obtain ⟨call, hcall, rfl⟩ := List.mem_map.1 hw
  exact ⟨token_ne_nil _, fun hsp => (token_chars (hok call hcall) _ hsp).1 rfl⟩

theorem processCriterion_call {call : LookCall} (hok : LookCallOk call) {l : List Addr}
    (hl : AllFiles st l) :
    Filters st l (tokenAct call.criterion.head call.criterion.text)
      (processCriterion st call.criterion.toString l) := by
  refine processCriterion_token (fun hq => (head_chars _ _ hq).1 rfl) ?_ hl
  exact fun hq => (text_chars hok _ hq).1 rfl

theorem foldlM_processCriterion {calls : List LookCall} (hok : ∀ call ∈ calls, LookCallOk call)
    (hharm : ∀ call ∈ calls, Harmless call) {l : List Addr} (hl : AllFiles st l) :
    ∃ l', (calls.map fun call => call.criterion.toString).foldlM
        (fun l cr => processCriterion st cr l) l = some l' ∧
      Selects st l (fun x => ∀ call ∈ calls, Applied x call) l' := by
  rw [List.foldlM_map]
  refine foldlM_selects (fun call hcall l hl => ?_) hl
  obtain ⟨t, ht, htest⟩ := tokenAct_criterion (hok call hcall) (hharm call hcall)
  have hfirst := processCriterion_call (hok call hcall) hl
  rw [ht] at hfirst
  obtain ⟨l₁, heq₁, hsel₁⟩ := hfirst
  exact ⟨l₁, heq₁, hsel₁.congr htest⟩

theorem foldlM_processCriterion_faults {calls : List LookCall}
    (hok : ∀ call ∈ calls, LookCallOk call) (hbad : ∃ call ∈ calls, ¬ Harmless call) {l : List Addr}
    (hl : AllFiles st l) :
    (calls.map fun call => call.criterion.toString).foldlM
      (fun l cr => processCriterion st cr l) l = none := by
  induction calls generalizing l with
  | nil =>
      obtain ⟨call, hcall, -⟩ := hbad
      cases hcall
  | cons call calls ih =>
      have hfirst := processCriterion_call (hok call (by simp)) hl
      -- The criteria before the one that faults keep a list, whatever is in it.
      by_cases hharm : Harmless call
      · obtain ⟨t, ht, -⟩ := tokenAct_criterion (hok call (by simp)) hharm
        rw [ht] at hfirst
        obtain ⟨l₁, heq₁, hsel₁⟩ := hfirst
        have hrest : ∃ c ∈ calls, ¬ Harmless c := by
          obtain ⟨c, hc, hcbad⟩ := hbad
          rcases List.mem_cons.1 hc with rfl | hc
          · exact absurd hharm hcbad
          · exact ⟨c, hc, hcbad⟩
        simpa [List.foldlM_cons, heq₁] using
          ih (fun c hc => hok c (by simp [hc])) hrest hsel₁.allFiles
      · rw [tokenAct_criterion_faults (hok call (by simp)) hharm] at hfirst
        have hnone : processCriterion st call.criterion.toString l = none := hfirst
        simp [List.foldlM_cons, hnone]

/-! ## The answer -/

theorem mem_fileList_iff (hreg : Registry st) : f ∈ fileList st ↔ ∃ x, st.file f = some x := by
  unfold fileList
  rw [mem_htToList_iff]
  constructor
  · rintro ⟨k, hk⟩
    obtain ⟨x, hx, -⟩ := hreg.file_of_key (Table.lookup_of_mem hreg.unique hk)
    exact ⟨x, hx⟩
  · rintro ⟨x, hx⟩
    exact ⟨x.md5Str, Table.mem_of_lookup (hreg.key_of_file hx)⟩

theorem fileList_nodup (hreg : Registry st) : (fileList st).Nodup := by
  unfold fileList
  rw [htToList_eq_reverse, List.nodup_reverse, Table.values]
  refine List.Nodup.map_on ?_ (List.Nodup.of_map _ hreg.unique)
  rintro ⟨k₁, f₁⟩ h₁ ⟨k₂, f₂⟩ h₂ heq
  obtain rfl : f₁ = f₂ := heq
  obtain ⟨x, hx, rfl⟩ := hreg.file_of_key (Table.lookup_of_mem hreg.unique h₁)
  obtain ⟨y, hy, rfl⟩ := hreg.file_of_key (Table.lookup_of_mem hreg.unique h₂)
  rw [Option.some.inj (hx.symm.trans hy)]

theorem AllFiles.mapM {l : List Addr} (hl : AllFiles st l) : ∃ xs, l.mapM st.file = some xs := by
  obtain ⟨xs, hxs, -⟩ := Machine.mapM_total hl
  exact ⟨xs, hxs⟩

theorem parse_spaces {pos : Nat} {s : CString} {ms : List RegMatch} {e : Nat}
    (hsp : ∀ ch ∈ s.head?, ch ≠ ' ') : Parse [spaces] pos s ms e ↔ ms = [] ∧ e = pos := by
  constructor
  · rintro ⟨w, s', ms', rfl, ⟨hall, -, -⟩, rfl, rfl, rfl⟩
    cases w with
    | nil => exact ⟨rfl, rfl⟩
    | cons ch w => exact absurd (by simpa using hall ch (by simp)) (hsp ch (by simp))
  · rintro ⟨rfl, rfl⟩
    exact ⟨[], s, [], rfl, ⟨by simp, Nat.zero_le _, by simp⟩, rfl, rfl, rfl⟩

/-- The group of a `look` request is what stands between the brackets. -/
theorem regexec_look {w tail : CString} (hw : ']' ∉ w) (ht : ']' ∉ tail)
    (hsp : ∀ ch ∈ tail.head?, ch ≠ ' ') :
    regexec lookRegexp ('[' :: (w ++ ']' :: tail)) =
      some [⟨0, 1 + w.length + 1⟩, ⟨1, 1 + w.length⟩] := by
  have hopen : Caseless '[' := caseless_of_not_letter rfl rfl
  have hpat : lookRegexp = .char '[' :: anyGroup :: .char ']' :: [spaces] := rfl
  rw [hpat]
  refine regexec_of_unique ?_ fun ms e hp => ?_
  · refine (parse_char_caseless hopen).2 ⟨_, rfl, (parse_anyGroup_mark bracket_caseless).2 ?_⟩
    exact ⟨w, tail, [], rfl, rfl, (parse_spaces hsp).2 ⟨rfl, rfl⟩⟩
  · obtain ⟨s', hs, hgroup⟩ := (parse_char_caseless hopen).1 hp
    obtain rfl := (List.cons.inj hs).2
    obtain ⟨v, t, ms', hsplit, rfl, hend⟩ := (parse_anyGroup_mark bracket_caseless).1 hgroup
    rcases append_mark_cases hw hsplit.symm with ⟨rfl, rfl⟩ | ⟨u, -, rfl⟩
    · obtain ⟨rfl, rfl⟩ := (parse_spaces hsp).1 hend
      exact ⟨by rw [Nat.zero_add], by rw [Nat.zero_add]⟩
    · exact absurd (by simp) ht

/-- The value of a `look` request as the tracker reads it. -/
def lookValue (lr : LookRequest) : CString := asCString ('[' :: (lr.toString ++ "]\n".toList))

theorem asCString_doLook (lr : LookRequest) :
    asCString (doLook lr) = "look".toList ++ ' ' :: lookValue lr := by
  have hline : doLook lr = "look ".toList ++ '[' :: (lr.toString ++ "]\n".toList) := by
    unfold doLook
    simp
  rw [hline, asCString_append (by decide)]
  rfl

/-- `list [...]` with one entry for each file. -/
def listReply (xs : List File) : CString :=
  "list [".toList ++ [' '].intercalate (xs.map fileEntry) ++ "]\n".toList

theorem handleRequest_look (c : Addr) (lr : LookRequest) :
    handleRequest st c (asCString (doLook lr)) =
      (protLook st c (lookValue lr)).map fun o =>
        (o.st, if o.ret < 0 then o.out ++ [errorReply] else o.out) := by
  have hhead : ∀ ch ∈ (lookValue lr).head?, isspace ch = false := by
    intro ch hch
    obtain rfl : '[' = ch := Option.some.inj hch
    rfl
  rw [asCString_doLook]
  exact handleRequest_word (h := .look) (by decide) (by decide) hhead (by decide)

/-- The answer to a `look` request is the list of the files selected. -/
theorem handleRequest_look_list {lr : LookRequest} {l : List Addr} {xs : List File}
    (hsel : lookFiles st (lookValue lr) = some (some l)) (hxs : l.mapM st.file = some xs) (c : Addr) :
    handleRequest st c (asCString (doLook lr)) = some (st, [listReply xs]) := by
  have hbuild : protLookBuildFileList st l = some ([' '].intercalate (xs.map fileEntry)) := by
    rw [protLookBuildFileList, hxs]
    rfl
  have hlook : protLook st c (lookValue lr) = some ⟨st, 0, [listReply xs]⟩ := by
    rw [protLook, hsel]
    simp only [Option.bind_eq_bind, Option.bind_some, hbuild]
    rfl
  rw [handleRequest_look, hlook]
  rfl

/-! ## Requests whose texts contain no NUL -/

def NulFree (call : LookCall) : Prop := '\x00' ∉ call.criterion.text

instance (call : LookCall) : Decidable (NulFree call) :=
  inferInstanceAs (Decidable ('\x00' ∉ call.criterion.text))

theorem head_nulFree (c : Criterion) : '\x00' ∉ c.head := by
  have hall : ∀ (field : CriterionField) (op : CriterionOP),
      '\x00' ∉ field.toString ++ op.toString := by
    intro field op
    cases field <;> cases op <;> decide
  exact hall c.field c.op

theorem nul_mem_request_iff {calls : List LookCall} :
    '\x00' ∈ (LookRequest.build calls).toString ↔ ∃ call ∈ calls, ¬ NulFree call := by
  rw [LookRequest.build_eq, LookRequest.toString, List.map_map]
  constructor
  · intro h
    rcases mem_intercalate h with hsp | ⟨w, hw, hnul⟩
    · cases hsp
    · obtain ⟨call, hcall, rfl⟩ := List.mem_map.1 hw
      refine ⟨call, hcall, fun hfree => hfree ?_⟩
      simp only [Function.comp, Criterion.toString, List.mem_append, List.mem_cons, List.not_mem_nil,
        or_false] at hnul
      rcases hnul with hnul | hq | hnul | hq
      · exact absurd hnul (head_nulFree _)
      · cases hq
      · exact hnul
      · cases hq
  · rintro ⟨call, hcall, hnul⟩
    refine mem_intercalate_of_mem (List.mem_map.2 ⟨call, hcall, rfl⟩) ?_
    simp [Criterion.toString, not_not.1 hnul]

theorem bracket_not_mem_request {calls : List LookCall} (hok : ∀ call ∈ calls, LookCallOk call) :
    ']' ∉ (LookRequest.build calls).toString := by
  rw [LookRequest.build_eq, LookRequest.toString, List.map_map]
  intro h
  rcases mem_intercalate h with hsp | ⟨w, hw, hb⟩
  · cases hsp
  · obtain ⟨call, hcall, rfl⟩ := List.mem_map.1 hw
    exact (token_chars (hok call hcall) _ hb).2 rfl

theorem lookFiles_of_nulFree {calls : List LookCall} (hok : ∀ call ∈ calls, LookCallOk call)
    (hnul : ∀ call ∈ calls, NulFree call) :
    lookFiles st (lookValue (LookRequest.build calls)) =
      ((calls.map fun call => call.criterion.toString).foldlM
        (fun l cr => processCriterion st cr l) (fileList st)).map some := by
  have hclean : '\x00' ∉ (LookRequest.build calls).toString := by
    rw [nul_mem_request_iff]
    rintro ⟨call, hcall, hbad⟩
    exact hbad (hnul call hcall)
  have hvalue : lookValue (LookRequest.build calls) =
      '[' :: ((LookRequest.build calls).toString ++ ']' :: ['\n']) := by
    refine asCString_eq_self fun hnul => ?_
    rcases List.mem_cons.1 hnul with hnul | hnul
    · cases hnul
    · rcases List.mem_append.1 hnul with hnul | hnul
      · exact hclean hnul
      · revert hnul
        decide
  rw [lookFiles, hvalue, regexec_look (bracket_not_mem_request hok) (by decide) (by simp)]
  have hgroup : substr ('[' :: ((LookRequest.build calls).toString ++ ']' :: ['\n'])) 1
      (1 + (LookRequest.build calls).toString.length) = (LookRequest.build calls).toString := by
    simp [substr]
  simp only [slot, List.getD_cons_succ, List.getD_cons_zero, hgroup, protLookProcessCriterions,
    stringSplit_request hok]

/-- A NUL cuts the request off before its closing bracket. -/
theorem lookFiles_of_nul {calls : List LookCall} (hok : ∀ call ∈ calls, LookCallOk call)
    (hnul : ∃ call ∈ calls, ¬ NulFree call) :
    lookFiles st (lookValue (LookRequest.build calls)) = some none := by
  have hmem := nul_mem_request_iff.2 hnul
  have hcut : lookValue (LookRequest.build calls) =
      '[' :: asCString (LookRequest.build calls).toString := by
    rw [← asCString_append_of_mem hmem "]\n".toList]
    exact asCString_append (s := ['[']) (by decide) _
  have hcount : (lookValue (LookRequest.build calls)).count ']' = 0 := by
    rw [hcut, List.count_eq_zero]
    intro hb
    rcases List.mem_cons.1 hb with hb | hb
    · cases hb
    · exact bracket_not_mem_request hok ((List.takeWhile_sublist _).subset hb)
  have hnone : regexec lookRegexp (lookValue (LookRequest.build calls)) = none := by
    refine regexec_eq_none bracket_caseless ?_
    rw [hcount]
    decide
  rw [lookFiles, hnone]

/-! ## When a search means what it says -/

/-- The files a `look` request is answered with are those that satisfy all its criteria, each once. -/
def LookMeans (st : Tracker) (calls : List LookCall) : Prop :=
  ∃ l xs, lookFiles st (lookValue (LookRequest.build calls)) = some (some l) ∧
    l.mapM st.file = some xs ∧
    (∀ c, handleRequest st c (asCString (doLook (LookRequest.build calls))) =
      some (st, [listReply xs])) ∧
    l.Nodup ∧ ∀ f x, st.file f = some x → (f ∈ l ↔ ∀ call ∈ calls, Satisfied x call)

/-- No text ends in a way the tracker faults on or contains a NUL, and of the registered files that
pass the criteria the tracker applies, none fails one it ignores. -/
def LookCondition (st : Tracker) (calls : List LookCall) : Prop :=
  (∀ call ∈ calls, Harmless call ∧ NulFree call) ∧
    ∀ f x, st.file f = some x → (∀ call ∈ calls, Applied x call) → ∀ call ∈ calls, Satisfied x call

theorem Satisfied.applied {x : File} {call : LookCall} (h : Satisfied x call) : Applied x call := by
  cases call with
  | addFilename filename => exact .inr h
  | addKey key => trivial
  | addSizeCriterion op size => exact h

theorem lookMeans_iff (hreg : Registry st) {calls : List LookCall}
    (hok : ∀ call ∈ calls, LookCallOk call) : LookMeans st calls ↔ LookCondition st calls := by
  have hall : AllFiles st (fileList st) := fun f hf => (mem_fileList_iff hreg).1 hf
  constructor
  · rintro ⟨l, xs, hsel, -, -, -, hmem⟩
    have hnul : ∀ call ∈ calls, NulFree call := by
      by_contra hbad
      push Not at hbad
      rw [lookFiles_of_nul hok hbad] at hsel
      cases hsel
    rw [lookFiles_of_nulFree hok hnul] at hsel
    have hharm : ∀ call ∈ calls, Harmless call := by
      by_contra hbad
      push Not at hbad
      rw [foldlM_processCriterion_faults hok hbad hall] at hsel
      cases hsel
    refine ⟨fun call hcall => ⟨hharm call hcall, hnul call hcall⟩, fun f x hx happ => ?_⟩
    obtain ⟨l', heq, hselects⟩ := foldlM_processCriterion hok hharm hall
    obtain rfl : l' = l := by simpa [heq] using hsel
    exact (hmem f x hx).1 (hselects.mem.2 ⟨(mem_fileList_iff hreg).2 ⟨x, hx⟩, x, hx, happ⟩)
  · rintro ⟨hgood, hignored⟩
    obtain ⟨l, heq, hselects⟩ := foldlM_processCriterion hok (fun call hc => (hgood call hc).1) hall
    obtain ⟨xs, hxs⟩ := hselects.allFiles.mapM
    have hsel : lookFiles st (lookValue (LookRequest.build calls)) = some (some l) := by
      rw [lookFiles_of_nulFree hok fun call hc => (hgood call hc).2, heq]
      rfl
    refine ⟨l, xs, hsel, hxs, handleRequest_look_list hsel hxs,
      hselects.nodup (fileList_nodup hreg), fun f x hx => ?_⟩
    rw [hselects.mem]
    constructor
    · rintro ⟨-, y, hy, happ⟩
      obtain rfl := Option.some.inj (hx.symm.trans hy)
      exact hignored f x hx happ
    · intro hsat
      exact ⟨(mem_fileList_iff hreg).2 ⟨x, hx⟩, x, hx, fun call hc => (hsat call hc).applied⟩

theorem lookMeans_iff_name_and_size : ∃ h st, TrackerRun h st ∧ st.file 0 ≠ none ∧
    LookMeans st [.addFilename "film".toList, .addSizeCriterion .ge 5] := by
  obtain ⟨h, st, hrun, hfile⟩ :=
    exists_run_of_replay [.connect 5 ⟨loopback, 4000⟩, .request 0 (announceFilm "6881".toList)]
      (P := fun _ st => st.file 0 ≠ none) (by decide +kernel)
  refine ⟨h, st, hrun, hfile,
    (lookMeans_iff (wellFormed_of_run hrun).toRegistry (by decide)).2 ⟨by decide, ?_⟩⟩
  intro f x _ happ
  rw [List.forall_mem_cons, List.forall_mem_singleton] at happ ⊢
  exact ⟨happ.1.resolve_left (by decide), happ.2⟩

def otherKey : CString := "fedcba9876543210fedcba9876543210".toList

/-- Asked for a key no file has, the tracker answers with the file it knows. -/
theorem look_ignores_key : ∃ h st, TrackerRun h st ∧
    (∀ f x, st.file f = some x → x.length < 2 ^ 31) ∧ (∀ call ∈ [.addKey otherKey], LookCallOk call) ∧
    ¬ LookMeans st [.addKey otherKey] := by
  obtain ⟨h, st, hrun, hlen, ⟨x, hx, hkey⟩, hsel⟩ :=
    exists_run_of_replay [.connect 5 ⟨loopback, 4000⟩, .request 0 (announceFilm "6881".toList)]
      (P := fun _ st => (∀ f, f < st.fileHeap.fresh → ∀ x ∈ st.file f, x.length < 2 ^ 31) ∧
        (∃ x ∈ st.file 0, x.md5Str = filmKey) ∧
        lookFiles st (lookValue (LookRequest.build [.addKey otherKey])) = some (some [0]))
      (by decide +kernel)
  refine ⟨h, st, hrun, fun f x hx => hlen f (Heap.lt_fresh_of_read hx) x hx, by decide, ?_⟩
  rintro ⟨l, xs, hl, -, -, -, hmem⟩
  obtain rfl : [0] = l := by simpa [hsel] using hl
  have hother : x.md5Str = otherKey := (hmem 0 x hx).1 (by simp) (.addKey otherKey) (by simp)
  rw [hkey] at hother
  revert hother
  decide

end CTracker
end Raiezau
