import Raiezau.CUtil.UtHashRuns

/-!
# UtHashSameKey — a key that is added again and again

`ht_add_entry` does not look whether the key is there, so one chain can grow as long as one likes.  The buckets are
doubled when the tenth entry comes, which turns the chain around, and again when the hundred and tenth comes; both
times it does not help, and there is no third time.
-/

namespace Raiezau
namespace CUtil
namespace UtHash

open Assoc Memory Machine

variable {α : Type} {hashFcn : CString → UInt32} {s s' : UtHash α} {a : Addr} {l c : List Addr} {t : UtTable}
  {chain : Nat → List Addr} {entries : Table CString α} {key : CString} {x : Expansion} {n j k : Nat}

/-! ## Doubling with one chain -/

theorem bucketOrder_eq (hj : j < n) (hempty : ∀ i < n, i ≠ j → chain i = []) : bucketOrder n chain = chain j := by
  induction n with
  | zero => exact absurd hj (Nat.not_lt_zero j)
  | succ n ih =>
      rw [bucketOrder, List.range_succ, List.map_append, List.flatten_append, List.map_singleton, List.flatten_singleton]
      by_cases hjn : j = n
      · have hnil : ((List.range n).map chain).flatten = [] := by
          refine List.flatten_eq_nil_iff.2 fun c hc => ?_
          obtain ⟨i, hi, rfl⟩ := List.mem_map.1 hc
          have hin : i < n := List.mem_range.1 hi
          exact hempty i (Nat.lt_succ_of_lt hin) (by omega)
        rw [hnil, hjn, List.nil_append]
      · rw [hempty n (Nat.lt_succ_self n) (Ne.symm hjn), List.append_nil]
        exact ih (by omega) fun i hi => hempty i (Nat.lt_succ_of_lt hi)

/-- Entries that move to a chain that is as long as it should be are all too many. -/
theorem placeAll_one {b : UtBucket} (hc : ∀ a ∈ c, s.bktOf n a = j) (hb : x.newBuckets[j]? = some b)
    (hcount : b.count ≠ 0) :
    ∃ b', (s.placeAll 1 n x c).newBuckets[j]? = some b' ∧
      b'.expandMult = (if c = [] then b.expandMult else b.count + c.length) ∧
      (s.placeAll 1 n x c).nonidealItems = x.nonidealItems + c.length := by
  induction c generalizing x b with
  | nil => exact ⟨b, hb, rfl, rfl⟩
  | cons a c ih =>
      have hlt : j < x.newBuckets.length := (List.getElem?_eq_some_iff.1 hb).1
      have hmore : 1 < b.count + 1 := by omega
      have hplace : place 1 (s.bktOf n a) x a =
          ⟨x.newBuckets.set j ⟨some a, b.count + 1, b.count + 1⟩, x.nonidealItems + 1⟩ := by
        rw [place, hc a List.mem_cons_self, hb]
        dsimp only
        rw [if_pos hmore, if_pos hmore, Nat.div_one]
      obtain ⟨b', hb', hmult, hnonideal⟩ := ih (x := place 1 (s.bktOf n a) x a) (b := ⟨some a, b.count + 1, b.count + 1⟩)
        (fun d hd => hc d (List.mem_cons_of_mem a hd)) (by rw [hplace, List.getElem?_set_self hlt]) (Nat.succ_ne_zero _)
      refine ⟨b', hb', ?_, ?_⟩
      · rw [hmult, if_neg (List.cons_ne_nil a c), List.length_cons]
        split
        · rename_i hnil
          rw [hnil]
          rfl
        · dsimp only
          omega
      · show (s.placeAll 1 n (place 1 (s.bktOf n a) x a) c).nonidealItems = _
        rw [hnonideal, hplace, List.length_cons]
        dsimp only
        omega

/-- A chain that moves as a whole. -/
theorem placeAll_start (hc : ∀ a ∈ c, s.bktOf n a = j) (hj : j < n) (hlen : 2 ≤ c.length) :
    ∃ b', (s.placeAll 1 n ⟨List.replicate n ⟨none, 0, 0⟩, 0⟩ c).newBuckets[j]? = some b' ∧
      b'.expandMult = c.length ∧
      (s.placeAll 1 n ⟨List.replicate n ⟨none, 0, 0⟩, 0⟩ c).nonidealItems + 1 = c.length := by
  obtain ⟨a, c, rfl⟩ := List.exists_cons_of_ne_nil (l := c) (by rintro rfl; simp at hlen)
  have hne : c ≠ [] := by
    rintro rfl
    simp at hlen
  have hplace : place 1 (s.bktOf n a) ⟨List.replicate n ⟨none, 0, 0⟩, 0⟩ a =
      ⟨(List.replicate n ⟨none, 0, 0⟩).set j ⟨some a, 1, 0⟩, 0⟩ := by
    rw [place, hc a List.mem_cons_self, List.getElem?_replicate_of_lt hj]
    rfl
  obtain ⟨b', hb', hmult, hnonideal⟩ := placeAll_one (s := s) (n := n) (b := ⟨some a, 1, 0⟩)
    (x := place 1 (s.bktOf n a) ⟨List.replicate n ⟨none, 0, 0⟩, 0⟩ a)
    (fun d hd => hc d (List.mem_cons_of_mem a hd))
    (by rw [hplace, List.getElem?_set_self (by rwa [List.length_replicate])]) Nat.one_ne_zero
  refine ⟨b', hb', ?_, ?_⟩
  · rw [hmult, if_neg hne, List.length_cons, Nat.add_comm]
  · show (s.placeAll 1 n (place 1 (s.bktOf n a) _ a) c).nonidealItems + 1 = _
    rw [hnonideal, hplace, List.length_cons]
    dsimp only
    omega

/-! ## The order of the search -/

/-- The entries in the order in which they are searched, when they have all been added under one key. -/
def searchOrder (l : List Addr) : List Addr :=
  if l.length < 10 then l.reverse
  else if l.length < 110 then (l.drop 10).reverse ++ l.take 10
  else (l.drop 110).reverse ++ (l.take 10).reverse ++ (l.drop 10).take 100

theorem searchOrder_append (l : List Addr) (a : Addr) :
    searchOrder (l ++ [a]) =
      if l.length + 1 = 10 ∨ l.length + 1 = 110 then (a :: searchOrder l).reverse else a :: searchOrder l := by
  have hlen : (l ++ [a]).length = l.length + 1 := by rw [List.length_append, List.length_singleton]
  have hdrop : ∀ {k}, k ≤ l.length → (l ++ [a]).drop k = l.drop k ++ [a] := fun hk => List.drop_append_of_le_length hk
  have htake : ∀ {k}, k ≤ l.length → (l ++ [a]).take k = l.take k := fun hk => List.take_append_of_le_length hk
  unfold searchOrder
  rw [hlen]
  rcases Nat.lt_trichotomy l.length 9 with hlt | heq | hgt
  · rw [if_pos (by omega), if_neg (by omega), if_pos (by omega), List.reverse_append]
    rfl
  · have hall : (l ++ [a]).drop 10 = [] := List.drop_eq_nil_of_le (by omega)
    rw [if_neg (by omega), if_pos (by omega), if_pos (by omega), if_pos (by omega), hall,
      List.take_of_length_le (by omega), List.reverse_cons, List.reverse_reverse]
    rfl
  · rcases Nat.lt_trichotomy l.length 109 with hlt | heq | hgt'
    · rw [if_neg (by omega), if_pos (by omega), if_neg (by omega), if_neg (by omega), if_pos (by omega),
        hdrop (by omega), htake (by omega), List.reverse_append]
      rfl
    · have hall : (l ++ [a]).drop 110 = [] := List.drop_eq_nil_of_le (by omega)
      have hmiddle : (l.drop 10 ++ [a]).take 100 = l.drop 10 ++ [a] := by
        refine List.take_of_length_le ?_
        rw [List.length_append, List.length_drop, List.length_singleton]
        omega
      rw [if_neg (by omega), if_neg (by omega), if_pos (by omega), if_neg (by omega), if_pos (by omega), hall,
        hdrop (by omega), htake (by omega), hmiddle, List.reverse_cons, List.reverse_append, List.reverse_reverse,
        List.reverse_nil, List.nil_append, List.append_assoc]
    · rw [if_neg (by omega), if_neg (by omega), if_neg (by omega), if_neg (by omega), if_neg (by omega),
        hdrop (by omega), htake (by omega), hdrop (by omega), List.take_append_of_le_length (by simp; omega),
        List.reverse_append]
      rfl

/-- The place of the entry that is found first. -/
def foundIndex (n : Nat) : Nat := if n = 10 then 0 else if n = 110 then 9 else n - 1

theorem head?_searchOrder (l : List Addr) : (searchOrder l).head? = l[foundIndex l.length]? := by
  have hback : ∀ {k}, k < l.length → (l.drop k).reverse.head? = l[l.length - 1]? := by
    intro k hk
    rw [List.head?_reverse, List.getLast?_drop, if_neg (by omega), List.getLast?_eq_getElem?]
  have hne : ∀ {k}, k < l.length → (l.drop k).reverse ≠ [] := fun hk =>
    List.ne_nil_of_length_pos (by rw [List.length_reverse, List.length_drop]; omega)
  unfold searchOrder foundIndex
  split
  · rw [if_neg (by omega), if_neg (by omega), List.head?_reverse, List.getLast?_eq_getElem?]
  · split
    · by_cases hten : l.length = 10
      · rw [if_pos hten, List.drop_eq_nil_of_le (by omega), List.take_of_length_le (by omega), List.reverse_nil,
          List.nil_append, List.head?_eq_getElem?]
      · rw [if_neg hten, if_neg (by omega), List.head?_append_of_ne_nil _ (hne (by omega)), hback (by omega)]
    · rw [if_neg (by omega), List.append_assoc]
      by_cases hmany : l.length = 110
      · rw [if_pos hmany, List.drop_eq_nil_of_le (by omega), List.reverse_nil, List.nil_append,
          List.head?_append_of_ne_nil _ (List.ne_nil_of_length_pos (by rw [List.length_reverse, List.length_take]; omega)),
          List.head?_reverse, List.getLast?_eq_getElem?,
          List.length_take, List.getElem?_take]
        simp [hmany]
      · rw [if_neg hmany, List.head?_append_of_ne_nil _ (hne (by omega)), hback (by omega)]

theorem length_searchOrder (l : List Addr) : (searchOrder l).length = l.length := by
  unfold searchOrder
  split
  · exact List.length_reverse
  · split <;> simp <;> omega

/-! ## Adding -/

/-- The table of the entries that were all added under one key. -/
structure SameKey (hashFcn : CString → UInt32) (key : CString) (s : UtHash α) (l : List Addr)
    (entries : Table CString α) (t : UtTable) (chain : Nat → List Addr) : Prop where
  holds : Holds hashFcn s l entries
  tabled : s.Tabled l t chain
  info_eq : ∀ b ∈ l, ∃ x, s.info b = some (key, x, key.length, hashFcn key)
  log2_eq : t.log2NumBuckets = if l.length < 10 then 5 else if l.length < 110 then 6 else 7
  ineff_eq : t.ineffExpands = if l.length < 10 then 0 else if l.length < 110 then 1 else 2
  noexpand_eq : t.noexpand = if l.length < 110 then 0 else 1
  mult_eq : ∀ bk, t.buckets[hashToBkt (hashFcn key) t.numBuckets]? = some bk →
    bk.expandMult = if l.length < 10 then 0 else if l.length < 110 then 10 else 110
  chain_eq : chain (hashToBkt (hashFcn key) t.numBuckets) = searchOrder l

theorem sameKey_create : SameKey hashFcn key (htCreate : UtHash α) [] [] (hashMakeTable 0) fun _ => [] where
  holds := holds_create
  tabled := tabled_nil 0
  info_eq b hb := absurd hb List.not_mem_nil
  log2_eq := rfl
  ineff_eq := rfl
  noexpand_eq := rfl
  mult_eq bk hbk := by rw [List.eq_of_mem_replicate (List.mem_of_getElem? hbk)]; rfl
  chain_eq := rfl

/-- The buckets are doubled when the tenth entry comes, and the hundred and tenth. -/
theorem SameKey.full_iff (h : SameKey hashFcn key s l entries t chain) {bk : UtBucket}
    (hbk : t.buckets[hashToBkt (hashFcn key) t.numBuckets]? = some bk) :
    (bk.expandMult + 1) * hashBktCapacityThresh ≤ bk.count + 1 ∧ t.noexpand ≠ 1 ↔
      l.length + 1 = 10 ∨ l.length + 1 = 110 := by
  obtain ⟨-, hcount⟩ := h.tabled.buckets.chained hbk
  rw [h.chain_eq, length_searchOrder] at hcount
  rw [h.mult_eq bk hbk, hcount, h.noexpand_eq, hashBktCapacityThresh]
  split
  · rw [if_pos (by omega)]
    omega
  · split <;> omega

/-- The buckets double, which does not make the chain shorter. -/
theorem hashExpandBuckets_sameKey (h : s.Buckets t.buckets t.numBuckets l chain) (ht : Counted t l) (hl : l.Nodup)
    (hinfo : ∀ b ∈ l, ∃ y : α, s.info b = some (key, y, key.length, hashFcn key)) (hideal : idealLength t = 1)
    (htwo : 2 ≤ l.length) :
    ∃ s' t' chain', hashExpandBuckets s t = some s' ∧ s'.Tabled l t' chain' ∧
      chain' (hashToBkt (hashFcn key) t'.numBuckets) = (chain (hashToBkt (hashFcn key) t.numBuckets)).reverse ∧
      (∀ bk, t'.buckets[hashToBkt (hashFcn key) t'.numBuckets]? = some bk → bk.expandMult = l.length) ∧
      t'.log2NumBuckets = t.log2NumBuckets + 1 ∧
      t'.ineffExpands = (if t.numItems >>> 1 < l.length - 1 then t.ineffExpands + 1 else 0) ∧
      t'.noexpand = (if 1 < t'.ineffExpands then 1 else t.noexpand) ∧
      s'.info = s.info ∧ s'.head = s.head ∧ s'.ptr .prev = s.ptr .prev ∧ s'.ptr .next = s.ptr .next := by
  have hbkt : ∀ m, ∀ b ∈ l, s.bktOf m b = hashToBkt (hashFcn key) m := fun m b hb => by
    obtain ⟨y, hy⟩ := hinfo b hb
    exact bktOf_eq hy m
  have hpow : 2 * t.numBuckets = 2 ^ (t.log2NumBuckets + 1) := by
    rw [ht.pow_eq, Nat.pow_succ, Nat.mul_comm]
  have hlt : hashToBkt (hashFcn key) t.numBuckets < t.numBuckets := by
    rw [ht.pow_eq]
    exact hashToBkt_lt _ _
  have hlt' : hashToBkt (hashFcn key) (2 * t.numBuckets) < 2 * t.numBuckets := by
    rw [hpow]
    exact hashToBkt_lt _ _
  -- All entries are in one chain, so it is what is met when the buckets are visited.
  have horder : bucketOrder t.numBuckets chain = chain (hashToBkt (hashFcn key) t.numBuckets) := by
    refine bucketOrder_eq hlt fun i hi hne => List.eq_nil_iff_forall_not_mem.2 fun b hb => ?_
    obtain ⟨hbl, hbi⟩ := (h.mem_iff hi b).1 hb
    exact hne (hbi.symm.trans (hbkt _ b hbl))
  have hmem : ∀ b, b ∈ chain (hashToBkt (hashFcn key) t.numBuckets) ↔ b ∈ l := fun b =>
    ⟨fun hb => ((h.mem_iff hlt b).1 hb).1, fun hb => (h.mem_iff hlt b).2 ⟨hb, hbkt _ b hb⟩⟩
  have hlen : (chain (hashToBkt (hashFcn key) t.numBuckets)).length = l.length :=
    ((List.perm_ext_iff_of_nodup (h.chain_nodup hlt) hl).2 hmem).length_eq
  have hne : l ≠ [] := List.ne_nil_of_length_pos (by omega)
  obtain ⟨s', t', hexpand, ht', htbl', hcounted, hbuckets, hinfo', hhead, hprev, hnext⟩ :=
    hashExpandBuckets_spec h ht hne fun b hb => by
      obtain ⟨y, hy⟩ := hinfo b hb
      rw [hy]
      exact Option.some_ne_none _
  obtain ⟨b', hb', hmult, hnonideal⟩ := placeAll_start (s := s) (n := 2 * t.numBuckets)
    (fun b hb => hbkt (2 * t.numBuckets) b ((hmem b).1 hb)) hlt' (htwo.trans_eq hlen.symm)
  rw [hideal, horder] at ht'
  rw [horder] at hbuckets
  have hnum : t'.numBuckets = 2 * t.numBuckets := by rw [ht']; rfl
  have hnew : t'.buckets[hashToBkt (hashFcn key) t'.numBuckets]? = some b' := by
    rw [hnum, ht']
    exact hb'
  refine ⟨s', t', _, hexpand, ⟨fun _ => htbl', fun h => absurd h hne, hcounted, hbuckets⟩, ?_, fun bk hbk => ?_, ?_, ?_, ?_,
    hinfo', hhead, hprev, hnext⟩
  · refine congrArg List.reverse ?_
    rw [hnum]
    exact List.filter_eq_self.2 fun b hb => decide_eq_true (hbkt _ b ((hmem b).1 hb))
  · obtain rfl := Option.some.inj (hbk.symm.trans hnew)
    rw [hmult, hlen]
  · rw [ht']
    rfl
  · rw [hlen] at hnonideal
    rw [ht', show l.length - 1 = _ from by rw [← hnonideal, Nat.add_sub_cancel]]
    rfl
  · rw [ht']
    rfl

/-- What depends on how often the buckets were doubled does not change when they are not. -/
theorem doubled_succ {β : Type} (hwhen : ¬ (n + 1 = 10 ∨ n + 1 = 110)) (x₀ x₁ x₂ : β) :
    (if n + 1 < 10 then x₀ else if n + 1 < 110 then x₁ else x₂) =
      if n < 10 then x₀ else if n < 110 then x₁ else x₂ := by
  have hten : n + 1 < 10 ↔ n < 10 := by omega
  have hmany : n + 1 < 110 ↔ n < 110 := by omega
  simp only [hten, hmany]

/-- When they are doubled, it goes on by one. -/
theorem doubled_at {β : Type} (hwhen : n + 1 = 10 ∨ n + 1 = 110) (x₀ x₁ x₂ : β) :
    (if n < 10 then x₀ else if n < 110 then x₁ else x₂) = (if n + 1 = 10 then x₀ else x₁) ∧
      (if n + 1 < 10 then x₀ else if n + 1 < 110 then x₁ else x₂) = if n + 1 = 10 then x₁ else x₂ := by
  rcases hwhen with hten | hmany
  · rw [if_pos hten, if_pos hten, if_pos (by omega), if_neg (by omega), if_pos (by omega)]
    exact ⟨rfl, rfl⟩
  · rw [if_neg (show ¬ n + 1 = 10 by omega), if_neg (by omega), if_pos (by omega), if_neg (by omega),
      if_neg (by omega), if_neg (show ¬ n + 1 = 10 by omega)]
    exact ⟨rfl, rfl⟩

/-- The table with an entry more in a bucket. -/
def pushed (t : UtTable) (j : Nat) (bk : UtBucket) (a : Addr) : UtTable :=
  { t with
    tail := a, numItems := t.numItems + 1, buckets := t.buckets.set j ⟨some a, bk.count + 1, bk.expandMult⟩ }

/-- Behind `HASH_ADD_TO_BKT`, up to the question whether the buckets are doubled. -/
structure Pushed (hashFcn : CString → UInt32) (key : CString) (l : List Addr) (entries : Table CString α) (t : UtTable)
    (chain : Nat → List Addr) (a : Addr) (y : α) (s' : UtHash α) (bk : UtBucket) : Prop where
  bucket : t.buckets[hashToBkt (hashFcn key) t.numBuckets]? = some bk
  lt : hashToBkt (hashFcn key) t.numBuckets < t.buckets.length
  nodup : (l ++ [a]).Nodup
  info_eq : ∀ b ∈ l ++ [a], ∃ x : α, s'.info b = some (key, x, key.length, hashFcn key)
  counted : Counted (pushed t (hashToBkt (hashFcn key) t.numBuckets) bk a) (l ++ [a])
  buckets : s'.Buckets (pushed t (hashToBkt (hashFcn key) t.numBuckets) bk a).buckets t.numBuckets (l ++ [a])
    (Function.update chain (hashToBkt (hashFcn key) t.numBuckets) (a :: searchOrder l))
  holds : ∀ {s₁ t₁ chain₁}, s₁.info = s'.info → s₁.head = s'.head → s₁.ptr .prev = s'.ptr .prev →
    s₁.ptr .next = s'.ptr .next → s₁.Tabled (l ++ [a]) t₁ chain₁ → Holds hashFcn s₁ (l ++ [a]) (entries.add key y)

theorem SameKey.push (h : SameKey hashFcn key s l entries t chain) (ha : a ∉ l) (y : α) :
    ∃ s' bk, Pushed hashFcn key l entries t chain a y s' bk ∧ htAddEntry hashFcn s a key y =
      (if (bk.expandMult + 1) * hashBktCapacityThresh ≤ bk.count + 1 ∧ t.noexpand ≠ 1 then
        s'.hashExpandBuckets (pushed t (hashToBkt (hashFcn key) t.numBuckets) bk a)
      else some (s'.setTable (pushed t (hashToBkt (hashFcn key) t.numBuckets) bk a))).bind fun s' => some (0, s') := by
  have ht := h.tabled
  obtain ⟨s₁, happ, hbuckets, hself, hother, hlive, hadd⟩ := htAddEntry_eq h.holds ht ha key y
  have hinfo₁ : ∀ b ∈ l ++ [a], ∃ x, s₁.info b = some (key, x, key.length, hashFcn key) := by
    intro b hb
    rcases List.mem_append.1 hb with hb | hb
    · rw [hother b fun hba => ha (hba ▸ hb)]
      exact h.info_eq b hb
    · rw [List.mem_singleton.1 hb]
      exact ⟨y, hself⟩
  have hmem : a ∈ l ++ [a] := List.mem_append_right l List.mem_cons_self
  obtain ⟨x, hx⟩ := hinfo₁ a hmem
  have hbkta : s₁.bktOf t.numBuckets a = hashToBkt (hashFcn key) t.numBuckets := bktOf_eq hx _
  have hlt : hashToBkt (hashFcn key) t.numBuckets < t.numBuckets := by
    rw [ht.counted.pow_eq]
    exact hashToBkt_lt _ _
  obtain ⟨bk, hbk⟩ := hbuckets.exists_bucket hlt
  obtain ⟨s₂, hbuckets₂, hinfo, hhead, hprev, hnext, haddto⟩ :=
    hashAddToBkt_eq (t := { t with tail := a, numItems := t.numItems + 1 }) hbuckets ha (hlive a hmem)
      (fun b hb => hlive b (List.mem_append_left _ hb)) (by rwa [hbkta])
  rw [hbkta, h.chain_eq] at hbuckets₂
  rw [hbkta] at haddto hadd
  have hcounted := ht.counted.append a
  refine ⟨s₂, bk, ⟨hbk, hbuckets.length_eq.symm ▸ hlt, happ.nodup, fun b hb => ?_,
    ⟨hcounted.pow_eq, hcounted.items_eq, hcounted.tail_eq⟩, hbuckets₂, fun hinfo' hhead' hprev' hnext' ht' => ?_⟩, ?_⟩
  · rw [hinfo]
    exact hinfo₁ b hb
  · exact h.holds.append ha happ hself hother (hinfo'.trans hinfo) (hhead'.trans hhead) (hprev'.trans hprev)
      (hnext'.trans hnext) ht'
  · rw [hadd]
    exact congrArg (Option.bind · _) haddto

section Pushed

variable {bk : UtBucket} {y : α}

/-- The buckets are not doubled. -/
theorem Pushed.stay (hp : Pushed hashFcn key l entries t chain a y s' bk)
    (h : SameKey hashFcn key s l entries t chain) (hwhen : ¬ (l.length + 1 = 10 ∨ l.length + 1 = 110)) :
    ∃ chain', SameKey hashFcn key (s'.setTable (pushed t (hashToBkt (hashFcn key) t.numBuckets) bk a)) (l ++ [a])
      (entries.add key y) (pushed t (hashToBkt (hashFcn key) t.numBuckets) bk a) chain' := by
  have hl : l ++ [a] ≠ [] := List.append_ne_nil_of_right_ne_nil _ (List.cons_ne_nil _ _)
  have hlen : (l ++ [a]).length = l.length + 1 := by rw [List.length_append, List.length_singleton]
  have ht : (s'.setTable (pushed t (hashToBkt (hashFcn key) t.numBuckets) bk a)).Tabled (l ++ [a]) _ _ :=
    ⟨fun _ => rfl, fun h => absurd h hl, hp.counted,
      hp.buckets.congr (fun _ _ => rfl) (fun _ _ => rfl) fun _ _ => rfl⟩
  refine ⟨_, hp.holds rfl rfl rfl rfl ht, ht, hp.info_eq, ?_, ?_, ?_, fun b hb => ?_, ?_⟩
  · show t.log2NumBuckets = _
    rw [h.log2_eq, hlen, doubled_succ hwhen]
  · show t.ineffExpands = _
    rw [h.ineff_eq, hlen, doubled_succ hwhen]
  · show t.noexpand = _
    rw [h.noexpand_eq, hlen]
    split <;> (split <;> omega)
  · have hnew : (t.buckets.set (hashToBkt (hashFcn key) t.numBuckets) ⟨some a, bk.count + 1, bk.expandMult⟩)[
        hashToBkt (hashFcn key) t.numBuckets]? = some b := hb
    rw [List.getElem?_set_self hp.lt] at hnew
    rw [← Option.some.inj hnew, hlen, doubled_succ hwhen]
    exact h.mult_eq bk hp.bucket
  · show Function.update chain _ _ (hashToBkt (hashFcn key) t.numBuckets) = _
    rw [Function.update_self, searchOrder_append, if_neg hwhen]

/-- The buckets are doubled. -/
theorem Pushed.grow (hp : Pushed hashFcn key l entries t chain a y s' bk)
    (h : SameKey hashFcn key s l entries t chain) (hwhen : l.length + 1 = 10 ∨ l.length + 1 = 110) :
    ∃ s₁ t₁ chain₁, s'.hashExpandBuckets (pushed t (hashToBkt (hashFcn key) t.numBuckets) bk a) = some s₁ ∧
      SameKey hashFcn key s₁ (l ++ [a]) (entries.add key y) t₁ chain₁ := by
  have hlen : (l ++ [a]).length = l.length + 1 := by rw [List.length_append, List.length_singleton]
  have hlog : t.log2NumBuckets = if l.length + 1 = 10 then 5 else 6 := h.log2_eq.trans (doubled_at hwhen 5 6 7).1
  have hineff : t.ineffExpands = if l.length + 1 = 10 then 0 else 1 := h.ineff_eq.trans (doubled_at hwhen 0 1 2).1
  have hnoexpand : t.noexpand = 0 := by rw [h.noexpand_eq, if_pos (by omega)]
  have hideal : idealLength (pushed t (hashToBkt (hashFcn key) t.numBuckets) bk a) = 1 := by
    rw [idealLength, hp.counted.pow_eq, hp.counted.items_eq, hlen]
    show ((l.length + 1) >>> (t.log2NumBuckets + 1)) + _ = 1
    rw [show (pushed t (hashToBkt (hashFcn key) t.numBuckets) bk a).log2NumBuckets = t.log2NumBuckets from rfl, hlog]
    rcases hwhen with hten | hmany
    · rw [hten]
      rfl
    · rw [hmany]
      rfl
  obtain ⟨s₁, t₁, chain₁, hexpand, ht₁, hchain, hmult, hlog₁, hineff₁, hnoexpand₁, hinfo, hhead, hprev, hnext⟩ :=
    hashExpandBuckets_sameKey (t := pushed t (hashToBkt (hashFcn key) t.numBuckets) bk a) hp.buckets hp.counted
      hp.nodup hp.info_eq hideal (by omega)
  have hineff₂ : t₁.ineffExpands = if l.length + 1 = 10 then 1 else 2 := by
    have hmany : (l.length + 1) >>> 1 < l.length + 1 - 1 := by
      rw [Nat.shiftRight_eq_div_pow]
      omega
    rw [hineff₁, hp.counted.items_eq, hlen, if_pos hmany]
    show t.ineffExpands + 1 = _
    rw [hineff]
    split <;> rfl
  refine ⟨s₁, t₁, chain₁, hexpand, hp.holds hinfo hhead hprev hnext ht₁, ht₁, fun b hb => ?_, ?_, ?_, ?_,
    fun b hb => ?_, ?_⟩
  · rw [hinfo]
    exact hp.info_eq b hb
  · rw [hlog₁, hlen, (doubled_at hwhen 5 6 7).2]
    show t.log2NumBuckets + 1 = _
    rw [hlog]
    split <;> rfl
  · rw [hineff₂, hlen, (doubled_at hwhen 0 1 2).2]
  · rw [hnoexpand₁, hineff₂, hlen]
    show (if _ then 1 else t.noexpand) = _
    rw [hnoexpand]
    rcases hwhen with hten | hmany
    · rw [if_pos hten, if_neg (by omega), if_pos (by omega)]
    · rw [if_neg (show ¬ l.length + 1 = 10 by omega), if_pos Nat.one_lt_two, if_neg (by omega)]
  · rw [hmult b hb, hlen, (doubled_at hwhen 0 10 110).2]
    rcases hwhen with hten | hmany
    · rw [if_pos hten, hten]
    · rw [if_neg (by omega), hmany]
  · have hsame : hashToBkt (hashFcn key) (pushed t (hashToBkt (hashFcn key) t.numBuckets) bk a).numBuckets =
        hashToBkt (hashFcn key) t.numBuckets := rfl
    rw [hchain, hsame, Function.update_self, searchOrder_append, if_pos hwhen]

end Pushed

theorem SameKey.add (h : SameKey hashFcn key s l entries t chain) (ha : a ∉ l) (y : α) :
    ∃ s' t' chain', htAddEntry hashFcn s a key y = some (0, s') ∧
      SameKey hashFcn key s' (l ++ [a]) (entries.add key y) t' chain' := by
  obtain ⟨s₁, bk, hp, hadd⟩ := h.push ha y
  have hfull := h.full_iff hp.bucket
  rw [hadd]
  split
  · next hcond =>
      obtain ⟨s', t', chain', hexpand, h'⟩ := hp.grow h (hfull.1 hcond)
      exact ⟨s', t', chain', by rw [hexpand]; rfl, h'⟩
  · next hcond =>
      obtain ⟨chain', h'⟩ := hp.stay h (mt hfull.2 hcond)
      exact ⟨_, _, chain', rfl, h'⟩

/-- The entry found is the one in front of the chain. -/
theorem SameKey.htGetEntry_eq (h : SameKey hashFcn key s l entries t chain) :
    s.htGetEntry hashFcn key = some (entries[foundIndex entries.length]?.map Prod.snd) := by
  have hlen : l.length = entries.length := h.holds.stored.length_eq
  have hfind : s.hashFindStr hashFcn key = some l[foundIndex l.length]? := by
    rw [hashFindStr_eq h.holds h.tabled, h.chain_eq, ← head?_searchOrder, firstWith]
    cases hfirst : searchOrder l with
    | nil => rfl
    | cons a c =>
        have ha : a ∈ l := by
          have hlt : hashToBkt (hashFcn key) t.numBuckets < t.numBuckets := by
            rw [h.tabled.counted.pow_eq]
            exact hashToBkt_lt _ _
          refine ((h.tabled.buckets.mem_iff hlt a).1 ?_).1
          rw [h.chain_eq, hfirst]
          exact List.mem_cons_self
        obtain ⟨y, hy⟩ := h.info_eq a ha
        have hkey : s.keyAt a = some key := by
          rw [keyAt, hy]
          rfl
        rw [List.find?_cons, decide_eq_true hkey]
        rfl
  cases hat : l[foundIndex l.length]? with
  | none =>
      have hle := List.getElem?_eq_none_iff.1 hat
      rw [hlen] at hle
      rw [List.getElem?_eq_none hle, h.holds.htGetEntry_eq (hat ▸ hfind) .none]
      rfl
  | some a =>
      have hplace : Option.Rel (fun a i => l[i]? = some a) (some a) (some (foundIndex l.length)) := .some hat
      rw [h.holds.htGetEntry_eq (hat ▸ hfind) hplace, hlen, Option.bind_some]

/-- After any number of calls with one key, the entry found is the last one added, unless the buckets were just
doubled. -/
theorem htGetEntry_of_same_key {h : History (UtHash α) (Call α × Answer α)} {xs : List α}
    (hrun : Run (Step hashFcn) htCreate h s)
    (hcalls : h.map (fun p => p.2.1) = (xs.map (Call.addEntry key)).reverse) :
    s.htGetEntry hashFcn key = some xs[foundIndex xs.length]? := by
  have hsame : ∃ l t chain, SameKey hashFcn key s l (xs.map fun x => (key, x)) t chain := by
    induction hrun generalizing xs with
    | start =>
        obtain rfl : xs = [] := List.map_eq_nil_iff.1 (List.reverse_eq_nil_iff.1 hcalls.symm)
        exact ⟨[], _, _, sameKey_create⟩
    | @next h s s' e _ hs ih =>
        obtain ⟨entry, hentry, hcall⟩ := hs
        obtain ⟨ys, y, rfl⟩ : ∃ ys y, xs = ys ++ [y] :=
          (List.eq_nil_or_concat' xs).resolve_left (by rintro rfl; simp at hcalls)
        rw [List.map_append, List.map_singleton, List.reverse_append, List.map_cons] at hcalls
        obtain ⟨he, hrest⟩ := List.cons.inj hcalls
        obtain ⟨l, t, chain, hl⟩ := ih hrest
        obtain ⟨s₁, t₁, chain₁, hadd, hl₁⟩ := hl.add (not_mem_of_heap hl.holds hentry) y
        dsimp only at he
        rw [he, call, hadd] at hcall
        obtain ⟨-, rfl⟩ := Prod.mk.inj (Option.some.inj hcall)
        refine ⟨l ++ [entry], t₁, chain₁, ?_⟩
        rw [List.map_append]
        exact hl₁
  obtain ⟨l, t, chain, hl⟩ := hsame
  rw [hl.htGetEntry_eq, List.length_map, List.getElem?_map, Option.map_map]
  exact congrArg some Option.map_id'

theorem htGetEntry_of_ten : ∃ (h : History (UtHash Nat) (Call Nat × Answer Nat)) (s : UtHash Nat),
    Run (Step HashJen.hash) htCreate h s ∧ h.map (fun p => p.2.1) = ((List.range 10).map (Call.addEntry ['p'])).reverse ∧
      s.htGetEntry HashJen.hash ['p'] = some (some 0) := by
  obtain ⟨h, s, hrun, hcalls⟩ := exists_run HashJen.hash ((List.range 10).map (Call.addEntry ['p']))
  exact ⟨h, s, hrun, hcalls, htGetEntry_of_same_key hrun hcalls⟩

end UtHash
end CUtil
end Raiezau
