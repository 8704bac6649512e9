import Raiezau.CUtil.UtHash
import Raiezau.Memory.TwoWay

/-!
# UtHashLinks — what the operations on entries write

Every operation sets pointers of entries that are there and leaves their contents alone, so a state is described
by where the pointers lead (`ptr`) and what the entries hold (`info`).
-/

namespace Raiezau
namespace CUtil
namespace UtHash

open Memory

variable {α : Type} {s s' s'' : UtHash α} {a b : Addr} {f g : Link} {p : Option Addr}
  {ptrs : Link → Addr → Option Addr}

/-! ## Pointers and contents -/

/-- Where a pointer of an entry leads. -/
def ptr (s : UtHash α) (f : Link) (a : Addr) : Option Addr := (s.heap a).bind fun e => e.link f

/-- What an entry holds besides its pointers: the key, the data, the length of the key and its hash value. -/
def info (s : UtHash α) (a : Addr) : Option (CString × α × Nat × UInt32) :=
  (s.heap a).map fun e => (e.key, e.data, e.keylen, e.hashv)

theorem heap_of_info {x : CString × α × Nat × UInt32} (h : s.info a = some x) :
    ∃ e, s.heap a = some e ∧ e.key = x.1 ∧ e.data = x.2.1 ∧ e.keylen = x.2.2.1 ∧ e.hashv = x.2.2.2 ∧
      ∀ f, e.link f = s.ptr f a := by
  obtain ⟨e, he, rfl⟩ := Option.map_eq_some_iff.1 h
  exact ⟨e, he, rfl, rfl, rfl, rfl, fun f => by rw [ptr, he]; rfl⟩

theorem info_eq_none_iff : s.info a = none ↔ s.heap a = none := Option.map_eq_none_iff

theorem info_store_self (entry : Option (HtEntry α)) :
    (s.store a entry).info a = entry.map fun e => (e.key, e.data, e.keylen, e.hashv) := by
  unfold info store
  dsimp only
  rw [Function.update_self]

theorem info_store_of_ne {entry : Option (HtEntry α)} (hb : b ≠ a) : (s.store a entry).info b = s.info b := by
  unfold info store
  dsimp only
  rw [Function.update_of_ne hb]

theorem ptr_store_of_ne {entry : Option (HtEntry α)} (hb : b ≠ a) :
    (s.store a entry).ptr f b = s.ptr f b := by
  unfold ptr store
  dsimp only
  rw [Function.update_of_ne hb]

/-! ## Writes -/

/-- The pointers after one is set. -/
def write (ptrs : Link → Addr → Option Addr) (f : Link) (a : Addr) (p : Option Addr) : Link → Addr → Option Addr :=
  fun g b => if g = f ∧ b = a then p else ptrs g b

/-- The pointers after one is set at the entry that a pointer leads to. -/
def writeAt (ptrs : Link → Addr → Option Addr) (f : Link) (target p : Option Addr) : Link → Addr → Option Addr :=
  match target with
  | none => ptrs
  | some a => write ptrs f a p

@[simp] theorem write_self : write ptrs f a p f a = p := if_pos ⟨rfl, rfl⟩

@[simp] theorem write_of_ne (hb : b ≠ a) : write ptrs f a p g b = ptrs g b := if_neg fun h => hb h.2

@[simp] theorem write_of_link_ne (hg : g ≠ f) : write ptrs f a p g = ptrs g :=
  funext fun _ => if_neg fun h => hg h.1

theorem writeAt_of_ne {target : Option Addr} (hb : target ≠ some b) :
    writeAt ptrs f target p g b = ptrs g b := by
  cases target with
  | none => rfl
  | some a => exact write_of_ne fun h => hb (congrArg some h.symm)

theorem writeAt_of_link_ne {target : Option Addr} (hg : g ≠ f) : writeAt ptrs f target p g = ptrs g := by
  cases target with
  | none => rfl
  | some a => exact write_of_link_ne hg

theorem writeAt_some : writeAt ptrs f (some a) p f a = p := write_self

/-- Only pointers of entries are set. -/
structure Relinked (s s' : UtHash α) (ptrs : Link → Addr → Option Addr) : Prop where
  ptr_eq : s'.ptr = ptrs
  info_eq : s'.info = s.info
  head_eq : s'.head = s.head
  tbl_eq : s'.tbl = s.tbl

theorem setLink_relinked (hlive : s.info a ≠ none) :
    ∃ s', s.setLink a f p = some s' ∧ Relinked s s' (write s.ptr f a p) := by
  obtain ⟨x, hx⟩ := Option.ne_none_iff_exists'.1 hlive
  obtain ⟨e, he, -⟩ := heap_of_info hx
  refine ⟨s.store a (some { e with link := Function.update e.link f p }), ?_, ?_, ?_, rfl, rfl⟩
  · rw [setLink, he]
    rfl
  · funext g b
    by_cases hb : b = a
    · subst hb
      by_cases hg : g = f
      · subst hg
        simp [write, UtHash.ptr, store]
      · simp [write, UtHash.ptr, store, hg, he]
    · rw [ptr_store_of_ne hb, write_of_ne hb]
  · funext b
    by_cases hb : b = a
    · subst hb
      rw [info_store_self, info, he]
      rfl
    · exact info_store_of_ne hb

theorem setLinkAt_relinked (s : UtHash α) (target : Option Addr) (f : Link) (p : Option Addr)
    (hlive : ∀ b, target = some b → s.info b ≠ none) :
    ∃ s', s.setLinkAt target f p = some s' ∧ Relinked s s' (writeAt s.ptr f target p) := by
  cases target with
  | none => exact ⟨s, rfl, rfl, rfl, rfl, rfl⟩
  | some b => exact setLink_relinked (hlive b rfl)

/-! ## Buckets -/

/-- The bucket of an entry, of so many. -/
def bktOf (s : UtHash α) (numBkts : Nat) (a : Addr) : Nat :=
  hashToBkt (((s.info a).map fun x => x.2.2.2).getD 0) numBkts

theorem bktOf_congr (h : s'.info = s.info) (n : Nat) : s'.bktOf n = s.bktOf n := by
  funext a
  rw [bktOf, bktOf, h]

theorem bktOf_eq {x : CString × α × Nat × UInt32} (h : s.info a = some x) (n : Nat) :
    s.bktOf n a = hashToBkt x.2.2.2 n := by
  rw [bktOf, h]
  rfl

theorem hashToBkt_lt (hashv : UInt32) (k : Nat) : hashToBkt hashv (2 ^ k) < 2 ^ k := by
  rw [hashToBkt, Nat.and_two_pow_sub_one_eq_mod]
  exact Nat.mod_lt _ (Nat.two_pow_pos k)

/-- The chains of the buckets: where they start, how long they are, and that each entry is in the chain of its
bucket. -/
structure Buckets (s : UtHash α) (buckets : List UtBucket) (n : Nat) (l : List Addr) (chain : Nat → List Addr) :
    Prop where
  length_eq : buckets.length = n
  chained : ∀ {j b}, buckets[j]? = some b →
    TwoWay (s.ptr .hhNext) (s.ptr .hhPrev) b.hhHead (chain j) ∧ b.count = (chain j).length
  mem_iff : ∀ {j}, j < n → ∀ a, (a ∈ chain j ↔ a ∈ l ∧ s.bktOf n a = j)

namespace Buckets

variable {buckets : List UtBucket} {n j : Nat} {l : List Addr} {chain : Nat → List Addr} {bk : UtBucket}

/-- The bucket of a number. -/
theorem exists_bucket (h : s.Buckets buckets n l chain) (hj : j < n) : ∃ bk, buckets[j]? = some bk :=
  ⟨_, List.getElem?_eq_getElem (h.length_eq.symm ▸ hj)⟩

theorem lt_of_bucket (h : s.Buckets buckets n l chain) (hb : buckets[j]? = some bk) : j < n :=
  h.length_eq ▸ (List.getElem?_eq_some_iff.1 hb).1

/-- The chains of two buckets have no entry in common. -/
theorem ne_of_mem (h : s.Buckets buckets n l chain) {i : Nat} (hi : i < n) (hj : j < n) (hij : i ≠ j)
    (ha : a ∈ chain i) (hb : b ∈ chain j) : a ≠ b := by
  rintro rfl
  exact hij ((((h.mem_iff hi a).1 ha).2).symm.trans ((h.mem_iff hj a).1 hb).2)

/-- The pointers of the chains lead where they did. -/
theorem congr (h : s.Buckets buckets n l chain) (hnext : ∀ b ∈ l, s'.ptr .hhNext b = s.ptr .hhNext b)
    (hprev : ∀ b ∈ l, s'.ptr .hhPrev b = s.ptr .hhPrev b) (hinfo : ∀ b ∈ l, s'.info b = s.info b) :
    s'.Buckets buckets n l chain := by
  refine ⟨h.length_eq, fun hb => ?_, fun hj a => ?_⟩
  · obtain ⟨hchain, hcount⟩ := h.chained hb
    have hmem := fun c hc => ((h.mem_iff (h.lt_of_bucket hb) c).1 hc).1
    exact ⟨hchain.congr (fun c hc => hnext c (hmem c hc)) (fun c hc => hprev c (hmem c hc)), hcount⟩
  · rw [h.mem_iff hj a]
    refine and_congr_right fun ha => ?_
    rw [bktOf, bktOf, hinfo a ha]

end Buckets

/-- The buckets of a table with no entries. -/
theorem buckets_nil (n : Nat) : s.Buckets (List.replicate n ⟨none, 0, 0⟩) n [] fun _ => [] := by
  refine ⟨List.length_replicate, fun hb => ?_, fun _ a => by simp⟩
  obtain ⟨-, rfl⟩ := List.getElem?_eq_some_iff.1 hb
  rw [List.getElem_replicate]
  exact ⟨TwoWay.nil, rfl⟩

end UtHash
end CUtil
end Raiezau
