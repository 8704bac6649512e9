import Mathlib.Data.List.Perm.Subperm
import Raiezau.CUtil.UtHashLinks

/-!
# UtHashExpand — what moves when the buckets are doubled

An entry moves to the front of its new bucket, so the entries of a new bucket stand in the order opposite to the
one in which they were met.  The order in which the entries were added is not touched.
-/

namespace Raiezau
namespace CUtil
namespace UtHash

open Memory

variable {α : Type} {s s' s'' : UtHash α} {a : Addr} {l moved c : List Addr} {x : Expansion}
  {buckets : List UtBucket} {chain : Nat → List Addr} {bk : UtBucket} {ideal n j fuel : Nat} {t : UtTable}

/-- The entries of a bucket, the last one in front. -/
def lastFirst (s : UtHash α) (n : Nat) (l : List Addr) (j : Nat) : List Addr :=
  (l.filter fun a => s.bktOf n a = j).reverse

theorem lastFirst_congr (h : ∀ b ∈ l, s'.info b = s.info b) (n : Nat) : s'.lastFirst n l = s.lastFirst n l := by
  funext j
  refine congrArg List.reverse (List.filter_congr fun b hb => ?_)
  rw [bktOf, bktOf, h b hb]

theorem lastFirst_append (n : Nat) (l : List Addr) (a : Addr) :
    s.lastFirst n (l ++ [a]) = Function.update (s.lastFirst n l) (s.bktOf n a)
      (a :: s.lastFirst n l (s.bktOf n a)) := by
  funext j
  by_cases hj : j = s.bktOf n a
  · subst hj
    rw [Function.update_self, lastFirst, lastFirst, List.filter_append]
    simp
  · have hne : ¬ s.bktOf n a = j := fun h => hj h.symm
    rw [Function.update_of_ne hj, lastFirst, lastFirst, List.filter_append]
    simp [hne]

/-- An entry is put in front of its bucket. -/
theorem Buckets.push (h : s.Buckets buckets n l chain) (ha : a ∉ l) (hbk : buckets[s.bktOf n a]? = some bk)
    (mult : Nat) (hinfo : s'.info = s.info) (hnext : s'.ptr .hhNext a = bk.hhHead)
    (hprev : s'.ptr .hhPrev a = none) (hhead : ∀ b, bk.hhHead = some b → s'.ptr .hhPrev b = some a)
    (hnexts : ∀ b, b ≠ a → s'.ptr .hhNext b = s.ptr .hhNext b)
    (hprevs : ∀ b, b ≠ a → bk.hhHead ≠ some b → s'.ptr .hhPrev b = s.ptr .hhPrev b) :
    s'.Buckets (buckets.set (s.bktOf n a) ⟨some a, bk.count + 1, mult⟩) n (l ++ [a])
      (Function.update chain (s.bktOf n a) (a :: chain (s.bktOf n a))) := by
  have hlt : s.bktOf n a < n := h.lt_of_bucket hbk
  obtain ⟨hchain, hcount⟩ := h.chained hbk
  have hmem : ∀ {i c}, i < n → c ∈ chain i → c ∈ l := fun hi hc => ((h.mem_iff hi _).1 hc).1
  have hne : ∀ {c}, c ∈ l → c ≠ a := fun hc hca => ha (hca ▸ hc)
  refine ⟨by rw [List.length_set, h.length_eq], ?_, ?_⟩
  · intro i b hb
    by_cases hi : s.bktOf n a = i
    · subst hi
      obtain rfl : b = ⟨some a, bk.count + 1, mult⟩ := by
        rw [List.getElem?_set_self (h.length_eq.symm ▸ hlt)] at hb
        exact (Option.some.inj hb).symm
      rw [Function.update_self]
      refine ⟨hchain.push (fun hac => ha (hmem hlt hac)) hnext hprev hhead (fun c hc => ?_) (fun c hc hch => ?_), ?_⟩
      · exact hnexts c (hne (hmem hlt hc))
      · exact hprevs c (hne (hmem hlt hc)) hch
      · rw [List.length_cons, hcount]
    · rw [List.getElem?_set_ne hi] at hb
      have hin : i < n := h.lt_of_bucket hb
      rw [Function.update_of_ne (Ne.symm hi)]
      refine ⟨(h.chained hb).1.congr (fun c hc => hnexts c (hne (hmem hin hc))) fun c hc => ?_, (h.chained hb).2⟩
      refine hprevs c (hne (hmem hin hc)) fun hch => ?_
      exact h.ne_of_mem hlt hin hi (hchain.mem_of_head hch) hc rfl
  · intro i hi b
    rw [bktOf_congr hinfo, List.mem_append, List.mem_singleton]
    by_cases hia : i = s.bktOf n a
    · subst hia
      rw [Function.update_self, List.mem_cons, h.mem_iff hi b]
      constructor
      · rintro (rfl | ⟨hb, hbi⟩)
        · exact ⟨.inr rfl, rfl⟩
        · exact ⟨.inl hb, hbi⟩
      · rintro ⟨hb | rfl, hbi⟩
        · exact .inr ⟨hb, hbi⟩
        · exact .inl rfl
    · rw [Function.update_of_ne hia, h.mem_iff hi b]
      constructor
      · rintro ⟨hb, hbi⟩
        exact ⟨.inl hb, hbi⟩
      · rintro ⟨hb | rfl, hbi⟩
        · exact ⟨hb, hbi⟩
        · exact absurd hbi.symm hia

/-! ## Moving -/

/-- Only the pointers inside the chains are set, and only those of the entries moved. -/
structure Moves (s s' : UtHash α) (l : List Addr) : Prop where
  info_eq : s'.info = s.info
  head_eq : s'.head = s.head
  tbl_eq : s'.tbl = s.tbl
  prev_eq : s'.ptr .prev = s.ptr .prev
  next_eq : s'.ptr .next = s.ptr .next
  hhNext_eq : ∀ b, b ∉ l → s'.ptr .hhNext b = s.ptr .hhNext b

theorem Moves.refl (s : UtHash α) (l : List Addr) : Moves s s l := ⟨rfl, rfl, rfl, rfl, rfl, fun _ _ => rfl⟩

theorem Moves.trans (h : Moves s s' l) (h' : Moves s' s'' l) : Moves s s'' l where
  info_eq := h'.info_eq.trans h.info_eq
  head_eq := h'.head_eq.trans h.head_eq
  tbl_eq := h'.tbl_eq.trans h.tbl_eq
  prev_eq := h'.prev_eq.trans h.prev_eq
  next_eq := h'.next_eq.trans h.next_eq
  hhNext_eq b hb := (h'.hhNext_eq b hb).trans (h.hhNext_eq b hb)

theorem Moves.mono (h : Moves s s' l) {m : List Addr} (hsub : l ⊆ m) : Moves s s' m :=
  { h with hhNext_eq := fun b hb => h.hhNext_eq b fun hl => hb (hsub hl) }

/-- The new buckets, with the entries that have moved. -/
def Placed (s : UtHash α) (x : Expansion) (n : Nat) (moved : List Addr) : Prop :=
  s.Buckets x.newBuckets n moved (s.lastFirst n moved)

/-- What the move of an entry does to the new buckets. -/
def place (ideal bkt : Nat) (x : Expansion) (a : Addr) : Expansion :=
  match x.newBuckets[bkt]? with
  | none => x
  | some b =>
      ⟨x.newBuckets.set bkt
        ⟨some a, b.count + 1, if ideal < b.count + 1 then (b.count + 1) / ideal else b.expandMult⟩,
        if ideal < b.count + 1 then x.nonidealItems + 1 else x.nonidealItems⟩

/-- The new buckets, when entries have moved one after the other. -/
def placeAll (s : UtHash α) (ideal n : Nat) (x : Expansion) (l : List Addr) : Expansion :=
  l.foldl (fun x a => place ideal (s.bktOf n a) x a) x

theorem placeAll_congr (h : s'.info = s.info) : s'.placeAll ideal n x l = s.placeAll ideal n x l := by
  rw [placeAll, placeAll, bktOf_congr h]

theorem moveEntry_spec (h : s.Placed x n moved) (ha : a ∉ moved) (hlive : s.info a ≠ none)
    (hmoved : ∀ b ∈ moved, s.info b ≠ none) (hlt : s.bktOf n a < n) (hideal : ideal ≠ 0) :
    ∃ s', moveEntry ideal n s x a = some (s', place ideal (s.bktOf n a) x a) ∧
      s'.Placed (place ideal (s.bktOf n a) x a) n (moved ++ [a]) ∧ Moves s s' (moved ++ [a]) := by
  obtain ⟨y, hy⟩ := Option.ne_none_iff_exists'.1 hlive
  obtain ⟨e, he, -, -, -, hhash, -⟩ := heap_of_info hy
  have hbkt : hashToBkt e.hashv n = s.bktOf n a := by rw [bktOf_eq hy, hhash]
  obtain ⟨bk, hbk⟩ := h.exists_bucket hlt
  have hheadmem : ∀ b, bk.hhHead = some b → b ∈ moved := fun b hb =>
    ((h.mem_iff hlt b).1 ((h.chained hbk).1.mem_of_head hb)).1
  obtain ⟨s₁, hset₁, hptr₁, hinfo₁, hhead₁, htbl₁⟩ :=
    setLink_relinked (s := s) (f := .hhPrev) (p := none) hlive
  obtain ⟨s₂, hset₂, hptr₂, hinfo₂, hhead₂, htbl₂⟩ :=
    setLink_relinked (s := s₁) (f := .hhNext) (p := bk.hhHead) (by rwa [hinfo₁])
  obtain ⟨s₃, hset₃, hptr₃, hinfo₃, hhead₃, htbl₃⟩ :=
    setLinkAt_relinked s₂ bk.hhHead .hhPrev (some a)
      fun b hb => by rw [hinfo₂, hinfo₁]; exact hmoved b (hheadmem b hb)
  have hinfo : s₃.info = s.info := hinfo₃.trans (hinfo₂.trans hinfo₁)
  have hne : ∀ b, bk.hhHead = some b → b ≠ a := fun b hb hba => ha (hba ▸ hheadmem b hb)
  have hnexts : ∀ b, b ≠ a → s₃.ptr .hhNext b = s.ptr .hhNext b := fun b hb => by
    rw [hptr₃, writeAt_of_link_ne (by decide), hptr₂, write_of_ne hb, hptr₁, write_of_ne hb]
  have hplace : place ideal (s.bktOf n a) x a = ⟨x.newBuckets.set (s.bktOf n a) ⟨some a, bk.count + 1,
      if ideal < bk.count + 1 then (bk.count + 1) / ideal else bk.expandMult⟩,
      if ideal < bk.count + 1 then x.nonidealItems + 1 else x.nonidealItems⟩ := by rw [place, hbk]
  rw [hplace]
  refine ⟨s₃, ?_, ?_, ?_⟩
  · simp only [moveEntry, he, hbkt, hbk, hset₁, hset₂, hset₃, hideal, false_and, if_false, Option.bind_eq_bind,
      Option.bind_some]
  · unfold Placed
    rw [lastFirst_congr fun b _ => congrFun hinfo b, lastFirst_append]
    refine Buckets.push h ha hbk _ hinfo ?_ ?_ ?_ hnexts ?_
    · rw [hptr₃, writeAt_of_link_ne (by decide), hptr₂, write_self]
    · rw [hptr₃, writeAt_of_ne fun hb => hne a hb rfl, hptr₂, write_of_link_ne (by decide), hptr₁, write_self]
    · intro b hb
      rw [hptr₃, hb, writeAt_some]
    · intro b hb hhead
      rw [hptr₃, writeAt_of_ne hhead, hptr₂, write_of_ne hb, hptr₁, write_of_ne hb]
  · refine ⟨hinfo, hhead₃.trans (hhead₂.trans hhead₁), htbl₃.trans (htbl₂.trans htbl₁), ?_, ?_, fun b hb => ?_⟩
    · rw [hptr₃, writeAt_of_link_ne (by decide), hptr₂, write_of_link_ne (by decide), hptr₁,
        write_of_link_ne (by decide)]
    · rw [hptr₃, writeAt_of_link_ne (by decide), hptr₂, write_of_link_ne (by decide), hptr₁,
        write_of_link_ne (by decide)]
    · exact hnexts b fun hba => hb (hba ▸ List.mem_append_right _ List.mem_cons_self)

/-- A whole chain moves. -/
theorem moveChain_spec (h : s.Placed x n moved) (hleads : Leads (s.ptr .hhNext) c) (hnodup : (moved ++ c).Nodup)
    (hlive : ∀ b ∈ moved ++ c, s.info b ≠ none) (hlt : ∀ b, s.bktOf n b < n) (hideal : ideal ≠ 0)
    (hfuel : c.length ≤ fuel) :
    ∃ s', moveChain ideal n fuel s x c.head? = some (s', s.placeAll ideal n x c) ∧
      s'.Placed (s.placeAll ideal n x c) n (moved ++ c) ∧ Moves s s' (moved ++ c) := by
  induction c generalizing s x moved fuel with
  | nil =>
      refine ⟨s, ?_, by rwa [List.append_nil], Moves.refl s _⟩
      cases fuel <;> rfl
  | cons a c ih =>
      obtain ⟨fuel, rfl⟩ : ∃ k, fuel = k + 1 := ⟨fuel - 1, by simp at hfuel; omega⟩
      have hcut : moved ++ a :: c = (moved ++ [a]) ++ c := by simp
      rw [hcut] at hnodup hlive ⊢
      obtain ⟨hnodupl, -, hdisj⟩ := List.nodup_append.1 hnodup
      have ha : a ∉ moved := fun hmem =>
        (List.nodup_append.1 hnodupl).2.2 a hmem a List.mem_cons_self rfl
      have halive : s.info a ≠ none := hlive a (by simp)
      obtain ⟨hnext, hleads'⟩ := Leads.cons_iff.1 hleads
      obtain ⟨s₁, hmove, hplaced, hmoves⟩ :=
        moveEntry_spec h ha halive (fun b hb => hlive b (by simp [hb])) (hlt a) hideal
      have hnotmoved : ∀ b ∈ c, b ∉ moved ++ [a] := fun b hb hmem => hdisj b hmem b hb rfl
      obtain ⟨s₂, hrest, hplaced₂, hmoves₂⟩ := ih hplaced (hleads'.congr fun b hb => hmoves.hhNext_eq b (hnotmoved b hb)) hnodup
        (fun b hb => by rw [hmoves.info_eq]; exact hlive b hb)
        (fun b => by rw [bktOf_congr hmoves.info_eq]; exact hlt b) (show c.length ≤ fuel by simpa using hfuel)
      obtain ⟨y, hy⟩ := Option.ne_none_iff_exists'.1 halive
      obtain ⟨e, he, -, -, -, -, hlink⟩ := heap_of_info hy
      rw [placeAll_congr hmoves.info_eq] at hrest hplaced₂
      refine ⟨s₂, ?_, hplaced₂, (hmoves.mono ?_).trans hmoves₂⟩
      · rw [List.head?_cons, moveChain, he, Option.bind_eq_bind, Option.bind_some, hmove, Option.bind_eq_bind,
          Option.bind_some, hlink, hnext]
        exact hrest
      · exact List.subset_append_left _ _

/-- The chains of all buckets move. -/
theorem moveBuckets_spec {bs : List UtBucket} {cs : List (List Addr)} (h : s.Placed x n moved)
    (hbs : List.Forall₂ (fun b c => b.hhHead = c.head? ∧ c.length ≤ fuel) bs cs)
    (hleads : ∀ c ∈ cs, Leads (s.ptr .hhNext) c)
    (hnodup : (moved ++ cs.flatten).Nodup) (hlive : ∀ b ∈ moved ++ cs.flatten, s.info b ≠ none)
    (hlt : ∀ b, s.bktOf n b < n) (hideal : ideal ≠ 0) :
    ∃ s', moveBuckets ideal n fuel bs s x = some (s', s.placeAll ideal n x cs.flatten) ∧
      s'.Placed (s.placeAll ideal n x cs.flatten) n (moved ++ cs.flatten) ∧ Moves s s' (moved ++ cs.flatten) := by
  induction hbs generalizing s x moved with
  | nil => exact ⟨s, rfl, by simpa [placeAll] using h, Moves.refl s _⟩
  | @cons b c bs cs hb hbs ih =>
      obtain ⟨hhead, hlen⟩ := hb
      have hcut : moved ++ (c :: cs).flatten = (moved ++ c) ++ cs.flatten := by simp
      rw [hcut] at hnodup hlive ⊢
      obtain ⟨hnodupl, -, hdisj⟩ := List.nodup_append.1 hnodup
      have hall : s.placeAll ideal n x (c :: cs).flatten = s.placeAll ideal n (s.placeAll ideal n x c) cs.flatten :=
        List.foldl_append
      obtain ⟨s₁, hmove, hplaced, hmoves⟩ := moveChain_spec h (hleads c List.mem_cons_self) hnodupl
        (fun b hb => hlive b (List.mem_append_left _ hb)) hlt hideal hlen
      obtain ⟨s₂, hrest, hplaced₂, hmoves₂⟩ := ih hplaced
        (fun d hd => (hleads d (List.mem_cons_of_mem c hd)).congr fun b hb => hmoves.hhNext_eq b fun hmem =>
          hdisj b hmem b (List.mem_flatten.2 ⟨d, hd, hb⟩) rfl) hnodup
        (fun b hb => by rw [hmoves.info_eq]; exact hlive b hb)
        (fun b => by rw [bktOf_congr hmoves.info_eq]; exact hlt b)
      rw [placeAll_congr hmoves.info_eq] at hrest hplaced₂
      rw [hall]
      refine ⟨s₂, ?_, hplaced₂, (hmoves.mono (List.subset_append_left _ _)).trans hmoves₂⟩
      rw [moveBuckets, hhead, hmove, Option.bind_eq_bind, Option.bind_some]
      exact hrest

/-! ## Doubling -/

/-- The buckets of the same entries, in another order. -/
theorem Buckets.of_mem (h : s.Buckets buckets n l chain) {m : List Addr} (hmem : ∀ a, a ∈ l ↔ a ∈ m) :
    s.Buckets buckets n m chain :=
  ⟨h.length_eq, h.chained, fun hj a => (h.mem_iff hj a).trans (and_congr_left' (hmem a))⟩

/-- All entries, bucket after bucket. -/
def bucketOrder (n : Nat) (chain : Nat → List Addr) : List Addr := ((List.range n).map chain).flatten

theorem Buckets.chain_nodup (h : s.Buckets buckets n l chain) (hj : j < n) : (chain j).Nodup := by
  obtain ⟨bk, hbk⟩ := h.exists_bucket hj
  exact (h.chained hbk).1.nodup

theorem Buckets.nodup_bucketOrder (h : s.Buckets buckets n l chain) : (bucketOrder n chain).Nodup := by
  refine List.nodup_flatten.2 ⟨fun c hc => ?_, ?_⟩
  · obtain ⟨j, hj, rfl⟩ := List.mem_map.1 hc
    exact h.chain_nodup (List.mem_range.1 hj)
  · refine List.pairwise_map.2 (List.Pairwise.imp_of_mem ?_ List.pairwise_lt_range)
    intro i j hi hj hij a hai haj
    exact h.ne_of_mem (List.mem_range.1 hi) (List.mem_range.1 hj) (Nat.ne_of_lt hij) hai haj rfl

theorem Buckets.mem_bucketOrder (h : s.Buckets buckets n l chain) (hlt : ∀ b, s.bktOf n b < n) :
    a ∈ bucketOrder n chain ↔ a ∈ l := by
  constructor
  · intro ha
    obtain ⟨c, hc, hac⟩ := List.mem_flatten.1 ha
    obtain ⟨j, hj, rfl⟩ := List.mem_map.1 hc
    exact ((h.mem_iff (List.mem_range.1 hj) a).1 hac).1
  · intro ha
    refine List.mem_flatten.2 ⟨chain (s.bktOf n a), List.mem_map.2 ⟨_, List.mem_range.2 (hlt a), rfl⟩, ?_⟩
    exact (h.mem_iff (hlt a) a).2 ⟨ha, rfl⟩

theorem bktOf_lt (s : UtHash α) (k : Nat) (a : Addr) : s.bktOf (2 ^ k) a < 2 ^ k := hashToBkt_lt _ k

/-- The parts of the table that go with its entries. -/
structure Counted (t : UtTable) (l : List Addr) : Prop where
  pow_eq : t.numBuckets = 2 ^ t.log2NumBuckets
  items_eq : t.numItems = l.length
  tail_eq : l ≠ [] → l.getLast? = some t.tail

/-- There is an entry, so a chain of ideal length is not empty: nothing is divided by zero. -/
theorem idealLength_ne_zero (hpow : t.numBuckets = 2 ^ t.log2NumBuckets) (hitems : t.numItems ≠ 0) :
    idealLength t ≠ 0 := by
  rw [idealLength, hpow, Nat.mul_comm 2, ← Nat.pow_succ, Nat.and_two_pow_sub_one_eq_mod, Nat.shiftRight_eq_div_pow]
  have hdiv := Nat.div_add_mod t.numItems (2 ^ (t.log2NumBuckets + 1))
  intro hsum
  obtain ⟨hquot, hrem⟩ := Nat.add_eq_zero_iff.1 hsum
  by_cases hmod : t.numItems % 2 ^ (t.log2NumBuckets + 1) = 0
  · rw [hquot, hmod] at hdiv
    exact hitems hdiv.symm
  · rw [if_pos hmod] at hrem
    exact absurd hrem Nat.one_ne_zero

theorem hashExpandBuckets_spec (h : s.Buckets t.buckets t.numBuckets l chain) (ht : Counted t l) (hl : l ≠ [])
    (hlive : ∀ b ∈ l, s.info b ≠ none) :
    ∃ s' t', hashExpandBuckets s t = some s' ∧
      t' = expanded t (s.placeAll (idealLength t) (2 * t.numBuckets) ⟨List.replicate (2 * t.numBuckets) ⟨none, 0, 0⟩, 0⟩
        (bucketOrder t.numBuckets chain)) ∧
      s'.tbl = some t' ∧ Counted t' l ∧
      s'.Buckets t'.buckets t'.numBuckets l (s.lastFirst (2 * t.numBuckets) (bucketOrder t.numBuckets chain)) ∧
      s'.info = s.info ∧ s'.head = s.head ∧ s'.ptr .prev = s.ptr .prev ∧
      s'.ptr .next = s.ptr .next := by
  have hpow : 2 * t.numBuckets = 2 ^ (t.log2NumBuckets + 1) := by
    rw [ht.pow_eq, Nat.pow_succ, Nat.mul_comm]
  have hltold : ∀ b, s.bktOf t.numBuckets b < t.numBuckets := fun b => by
    rw [ht.pow_eq]
    exact bktOf_lt s _ b
  have hltnew : ∀ b, s.bktOf (2 * t.numBuckets) b < 2 * t.numBuckets := fun b => by
    rw [hpow]
    exact bktOf_lt s _ b
  have hmem : ∀ a, a ∈ bucketOrder t.numBuckets chain ↔ a ∈ l := fun a => h.mem_bucketOrder hltold
  have hnonempty : t.numItems ≠ 0 := fun hzero =>
    hl (List.length_eq_zero_iff.1 (ht.items_eq.symm.trans hzero))
  have hbs : List.Forall₂ (fun (b : UtBucket) (c : List Addr) => b.hhHead = c.head? ∧ c.length ≤ t.numItems)
      t.buckets ((List.range t.numBuckets).map chain) := by
    refine List.forall₂_iff_get.2 ⟨by simp [h.length_eq], fun i hi hi' => ?_⟩
    have hget : t.buckets[i]? = some (t.buckets.get ⟨i, hi⟩) := List.getElem?_eq_getElem hi
    have hchain := (h.chained hget).1
    have hsub : (chain i).length ≤ l.length :=
      (List.subperm_of_subset hchain.nodup fun b hb => ((h.mem_iff (h.lt_of_bucket hget) b).1 hb).1).length_le
    simpa [ht.items_eq] using ⟨hchain.head_eq, hsub⟩
  have hempty : s.Placed ⟨List.replicate (2 * t.numBuckets) ⟨none, 0, 0⟩, 0⟩ (2 * t.numBuckets) [] :=
    buckets_nil _
  let x' := s.placeAll (idealLength t) (2 * t.numBuckets) ⟨List.replicate (2 * t.numBuckets) ⟨none, 0, 0⟩, 0⟩
    (bucketOrder t.numBuckets chain)
  obtain ⟨s', hmove, hplaced, hmoves⟩ := moveBuckets_spec hempty hbs
    (fun c hc => by
      obtain ⟨j, hj, rfl⟩ := List.mem_map.1 hc
      obtain ⟨bk, hbk⟩ := h.exists_bucket (List.mem_range.1 hj)
      exact (h.chained hbk).1.leads)
    (by simpa [bucketOrder] using h.nodup_bucketOrder)
    (fun b hb => hlive b ((hmem b).1 (by simpa [bucketOrder] using hb))) hltnew
    (idealLength_ne_zero ht.pow_eq hnonempty)
  rw [List.nil_append] at hplaced
  have hbuckets : s'.Buckets x'.newBuckets (2 * t.numBuckets) l
      (s.lastFirst (2 * t.numBuckets) (bucketOrder t.numBuckets chain)) := by
    rw [← lastFirst_congr fun b _ => congrFun hmoves.info_eq b]
    exact Buckets.of_mem hplaced hmem
  refine ⟨s'.setTable (expanded t x'), expanded t x', ?_, rfl, rfl, ⟨?_, ?_, ?_⟩, ?_, ?_, ?_, ?_, ?_⟩
  · simp only [hashExpandBuckets]
    rw [hmove]
    rfl
  · exact hpow
  · exact ht.items_eq
  · exact ht.tail_eq
  · exact hbuckets.congr (fun _ _ => rfl) (fun _ _ => rfl) fun _ _ => rfl
  · exact hmoves.info_eq
  · exact hmoves.head_eq
  · exact hmoves.prev_eq
  · exact hmoves.next_eq

end UtHash
end CUtil
end Raiezau
