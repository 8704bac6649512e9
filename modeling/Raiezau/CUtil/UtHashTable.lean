import Raiezau.CUtil.UtHashExpand
import Raiezau.Machine.Fold

/-!
# UtHashTable — the table that the entries stand for

`Holds` relates the entries in memory to the table of `HashTable`: the keys and values in the order they were
added.  Each operation keeps it, reads no freed entry, and frees what it takes out.
-/

namespace Raiezau
namespace CUtil
namespace UtHash

open Assoc Memory Machine

variable {α : Type} {hashFcn : CString → UInt32} {s s' : UtHash α} {a : Addr} {l : List Addr}
  {buckets : List UtBucket} {chain : Nat → List Addr} {bk : UtBucket} {t : UtTable} {n : Nat}
  {entries : Table CString α} {key : CString} {x : α}

/-! ## What the memory holds -/

/-- An entry with its key and data. -/
def Stored (hashFcn : CString → UInt32) (s : UtHash α) (a : Addr) (e : CString × α) : Prop :=
  s.info a = some (e.1, e.2, e.1.length, hashFcn e.1)

/-- The buckets of the entries.  Where there are no entries, the table is the one that the next one will get. -/
structure Tabled (s : UtHash α) (l : List Addr) (t : UtTable) (chain : Nat → List Addr) : Prop where
  tbl_eq : l ≠ [] → s.tbl = some t
  fresh : l = [] → t = hashMakeTable t.tail
  counted : Counted t l
  buckets : s.Buckets t.buckets t.numBuckets l chain

theorem tabled_nil (a : Addr) : s.Tabled [] (hashMakeTable a) fun _ => [] where
  tbl_eq h := absurd rfl h
  fresh _ := rfl
  counted := ⟨rfl, rfl, fun h => absurd rfl h⟩
  buckets := buckets_nil _

theorem Counted.append (ht : Counted t l) (a : Addr) :
    Counted { t with tail := a, numItems := t.numItems + 1 } (l ++ [a]) := by
  refine ⟨ht.pow_eq, ?_, fun _ => List.getLast?_concat⟩
  rw [List.length_append, List.length_singleton]
  exact congrArg (· + 1) ht.items_eq

/-- The entries in memory are those of the table, in its order. -/
structure Holds (hashFcn : CString → UInt32) (s : UtHash α) (l : List Addr) (entries : Table CString α) : Prop where
  app : TwoWay (s.ptr .next) (s.ptr .prev) s.head l
  stored : List.Forall₂ (Stored hashFcn s) l entries
  live_iff : ∀ b, s.info b ≠ none ↔ b ∈ l
  tabled : ∃ t chain, s.Tabled l t chain

theorem holds_create : Holds hashFcn (htCreate : UtHash α) [] [] where
  app := TwoWay.nil
  stored := .nil
  live_iff _ := iff_of_false (fun h => h rfl) List.not_mem_nil
  tabled := ⟨_, _, tabled_nil 0⟩

/-! ## Adding -/

/-- `HASH_ADD_TO_BKT`, up to the question whether the buckets are doubled. -/
theorem hashAddToBkt_eq (h : s.Buckets t.buckets n l chain) (ha : a ∉ l) (halive : s.info a ≠ none)
    (hlive : ∀ b ∈ l, s.info b ≠ none) (hbk : t.buckets[s.bktOf n a]? = some bk) :
    ∃ s₁ : UtHash α, s₁.Buckets (t.buckets.set (s.bktOf n a) ⟨some a, bk.count + 1, bk.expandMult⟩) n (l ++ [a])
        (Function.update chain (s.bktOf n a) (a :: chain (s.bktOf n a))) ∧
      s₁.info = s.info ∧ s₁.head = s.head ∧ s₁.ptr .prev = s.ptr .prev ∧ s₁.ptr .next = s.ptr .next ∧
      s.hashAddToBkt t (s.bktOf n a) a =
        (let t₁ := { t with buckets := t.buckets.set (s.bktOf n a) ⟨some a, bk.count + 1, bk.expandMult⟩ }
         if (bk.expandMult + 1) * hashBktCapacityThresh ≤ bk.count + 1 ∧ t.noexpand ≠ 1 then
           s₁.hashExpandBuckets t₁
         else some (s₁.setTable t₁)) := by
  have hlt : s.bktOf n a < n := h.lt_of_bucket hbk
  have hheadmem : ∀ b, bk.hhHead = some b → b ∈ l := fun b hb =>
    ((h.mem_iff hlt b).1 ((h.chained hbk).1.mem_of_head hb)).1
  have hne : ∀ b, bk.hhHead = some b → b ≠ a := fun b hb hba => ha (hba ▸ hheadmem b hb)
  obtain ⟨s₁, hset₁, hptr₁, hinfo₁, hhead₁, htbl₁⟩ :=
    setLink_relinked (s := s) (f := .hhNext) (p := bk.hhHead) halive
  obtain ⟨s₂, hset₂, hptr₂, hinfo₂, hhead₂, htbl₂⟩ :=
    setLink_relinked (s := s₁) (f := .hhPrev) (p := none) (a := a) (by rwa [hinfo₁])
  obtain ⟨s₃, hset₃, hptr₃, hinfo₃, hhead₃, htbl₃⟩ :=
    setLinkAt_relinked s₂ bk.hhHead .hhPrev (some a)
      fun b hb => by rw [hinfo₂, hinfo₁]; exact hlive b (hheadmem b hb)
  have hinfo : s₃.info = s.info := hinfo₃.trans (hinfo₂.trans hinfo₁)
  refine ⟨s₃, ?_, hinfo, hhead₃.trans (hhead₂.trans hhead₁), ?_, ?_, ?_⟩
  · refine h.push ha hbk _ hinfo ?_ ?_ ?_ ?_ ?_
    · rw [hptr₃, writeAt_of_link_ne (by decide), hptr₂, write_of_link_ne (by decide), hptr₁, write_self]
    · rw [hptr₃, writeAt_of_ne fun hb => hne a hb rfl, hptr₂, write_self]
    · intro b hb
      rw [hptr₃, hb, writeAt_some]
    · intro b hb
      rw [hptr₃, writeAt_of_link_ne (by decide), hptr₂, write_of_ne hb, hptr₁, write_of_ne hb]
    · intro b hb hhead
      rw [hptr₃, writeAt_of_ne hhead, hptr₂, write_of_ne hb, hptr₁, write_of_ne hb]
  · rw [hptr₃, writeAt_of_link_ne (by decide), hptr₂, write_of_link_ne (by decide), hptr₁,
      write_of_link_ne (by decide)]
  · rw [hptr₃, writeAt_of_link_ne (by decide), hptr₂, write_of_link_ne (by decide), hptr₁,
      write_of_link_ne (by decide)]
  · simp only [hashAddToBkt, hbk, hset₁, hset₂, hset₃, Option.bind_eq_bind, Option.bind_some]

/-- The table and its buckets behind `HASH_ADD_TO_BKT`. -/
theorem hashAddToBkt_spec (h : s.Buckets t.buckets t.numBuckets l chain) (ht : Counted t (l ++ [a])) (ha : a ∉ l)
    (hlive : ∀ b ∈ l ++ [a], s.info b ≠ none) :
    ∃ s' t' chain', s.hashAddToBkt t (s.bktOf t.numBuckets a) a = some s' ∧ s'.Tabled (l ++ [a]) t' chain' ∧
      s'.info = s.info ∧ s'.head = s.head ∧ s'.ptr .prev = s.ptr .prev ∧ s'.ptr .next = s.ptr .next := by
  have hlt : s.bktOf t.numBuckets a < t.numBuckets := by
    rw [ht.pow_eq]
    exact bktOf_lt s _ a
  have hl : l ++ [a] ≠ [] := List.append_ne_nil_of_right_ne_nil _ (List.cons_ne_nil _ _)
  obtain ⟨bk, hbk⟩ := h.exists_bucket hlt
  obtain ⟨s₁, hbuckets, hinfo, hhead, hprev, hnext, hadd⟩ := hashAddToBkt_eq h ha
    (hlive a (List.mem_append_right l List.mem_cons_self)) (fun b hb => hlive b (List.mem_append_left _ hb)) hbk
  rw [hadd]
  dsimp only
  split
  · have ht₁ : Counted { t with
        buckets := t.buckets.set (s.bktOf t.numBuckets a) ⟨some a, bk.count + 1, bk.expandMult⟩ } (l ++ [a]) :=
      ⟨ht.pow_eq, ht.items_eq, ht.tail_eq⟩
    obtain ⟨s', t', hexpand, -, htbl', hcounted, hbuckets', hinfo', hhead', hprev', hnext'⟩ :=
      hashExpandBuckets_spec hbuckets ht₁ hl fun b hb => by rw [hinfo]; exact hlive b hb
    exact ⟨s', t', _, hexpand, ⟨fun _ => htbl', fun h => absurd h hl, hcounted, hbuckets'⟩, hinfo'.trans hinfo,
      hhead'.trans hhead, hprev'.trans hprev, hnext'.trans hnext⟩
  · exact ⟨s₁.setTable _, _, _, rfl, ⟨fun _ => rfl, fun h => absurd h hl, ⟨ht.pow_eq, ht.items_eq, ht.tail_eq⟩,
      hbuckets.congr (fun _ _ => rfl) (fun _ _ => rfl) fun _ _ => rfl⟩, hinfo, hhead, hprev, hnext⟩

/-- An entry is put behind the others, and a table with no entries gets its buckets. -/
theorem appendItem_spec (happ : TwoWay (s.ptr .next) (s.ptr .prev) s.head l) (ha : a ∉ l)
    (hlive : ∀ b ∈ l ++ [a], s.info b ≠ none) (ht : s.Tabled l t chain) :
    ∃ s', s.appendItem a = some (s', { t with tail := a }) ∧ s'.info = s.info ∧
      TwoWay (s'.ptr .next) (s'.ptr .prev) s'.head (l ++ [a]) ∧ s'.Buckets t.buckets t.numBuckets l chain := by
  have halive : s.info a ≠ none := hlive a (List.mem_append_right l List.mem_cons_self)
  obtain ⟨s₁, hset₁, hptr₁, hinfo₁, hhead₁, htbl₁⟩ := setLink_relinked (s := s) (f := .next) (p := none) halive
  by_cases hl : l = []
  · subst hl
    have hhead : s.head = none := happ.head_eq
    have hfresh : { t with tail := a } = hashMakeTable a := by
      rw [ht.fresh rfl]
      rfl
    obtain ⟨s₂, hset₂, hptr₂, hinfo₂, hhead₂, htbl₂⟩ :=
      setLink_relinked (s := s₁) (f := .prev) (p := none) (a := a) (by rwa [hinfo₁])
    refine ⟨{ s₂ with head := some a }, ?_, hinfo₂.trans hinfo₁, ?_, ?_⟩
    · simp only [appendItem, hset₁, hhead₁, hhead, hset₂, hfresh, Option.bind_eq_bind, Option.bind_some]
    · refine TwoWay.single ?_ ?_
      · show s₂.ptr .next a = none
        rw [hptr₂, write_of_link_ne (by decide), hptr₁, write_self]
      · show s₂.ptr .prev a = none
        rw [hptr₂, write_self]
    · exact ht.buckets.congr (fun b hb => absurd hb List.not_mem_nil) (fun b hb => absurd hb List.not_mem_nil)
        fun b hb => absurd hb List.not_mem_nil
  · have htbl : s.tbl = some t := ht.tbl_eq hl
    have hlast : l.getLast? = some t.tail := ht.counted.tail_eq hl
    obtain ⟨b, hb⟩ : ∃ b, s.head = some b := by
      cases l with
      | nil => exact absurd rfl hl
      | cons b l => exact ⟨b, happ.head_eq⟩
    have htail : t.tail ∈ l := List.mem_of_getLast? hlast
    have hne : ∀ c ∈ l, c ≠ a := fun c hc hca => ha (hca ▸ hc)
    obtain ⟨s₂, hset₂, hptr₂, hinfo₂, hhead₂, htbl₂⟩ :=
      setLink_relinked (s := s₁) (a := t.tail) (f := .next) (p := some a)
        (by rw [hinfo₁]; exact hlive _ (List.mem_append_left _ htail))
    obtain ⟨s₃, hset₃, hptr₃, hinfo₃, hhead₃, htbl₃⟩ :=
      setLink_relinked (s := s₂) (a := a) (f := .prev) (p := some t.tail) (by rwa [hinfo₂, hinfo₁])
    have hinfo : s₃.info = s.info := hinfo₃.trans (hinfo₂.trans hinfo₁)
    refine ⟨s₃, ?_, hinfo, ?_, ?_⟩
    · simp only [appendItem, hset₁, hhead₁, hb, htbl₁, htbl, hset₂, hset₃, Option.bind_eq_bind, Option.bind_some]
    · have hhead : s₃.head = (l ++ [a]).head? := by
        rw [hhead₃, hhead₂, hhead₁, happ.head_eq, List.head?_append_of_ne_nil l hl]
      rw [hhead]
      refine happ.append ha ?_ ?_ ?_ ?_ ?_
      · rw [hptr₃, write_of_link_ne (by decide), hptr₂, write_of_ne (hne _ htail).symm, hptr₁, write_self]
      · rw [hptr₃, write_self, hlast]
      · intro c hc
        obtain rfl : t.tail = c := Option.some.inj (hlast.symm.trans hc)
        rw [hptr₃, write_of_link_ne (by decide), hptr₂, write_self]
      · intro c hc
        rw [hptr₃, write_of_ne (hne c hc), hptr₂, write_of_link_ne (by decide), hptr₁, write_of_link_ne (by decide)]
      · intro c hc hcl
        have hctail : c ≠ t.tail := fun h => hcl (h ▸ hlast)
        rw [hptr₃, write_of_ne (hne c hc), hptr₂, write_of_ne hctail, hptr₁, write_of_ne (hne c hc)]
    · refine ht.buckets.congr (fun c _ => ?_) (fun c _ => ?_) fun c _ => congrFun hinfo c <;>
        rw [hptr₃, write_of_link_ne (by decide), hptr₂, write_of_link_ne (by decide), hptr₁,
          write_of_link_ne (by decide)]

/-- `ht_add_entry` up to `HASH_ADD_TO_BKT`, at an address where there is no entry. -/
theorem htAddEntry_eq (h : Holds hashFcn s l entries) (ht : s.Tabled l t chain) (ha : a ∉ l) (key : CString) (x : α) :
    ∃ s₁ : UtHash α, TwoWay (s₁.ptr .next) (s₁.ptr .prev) s₁.head (l ++ [a]) ∧
      s₁.Buckets t.buckets t.numBuckets l chain ∧ s₁.info a = some (key, x, key.length, hashFcn key) ∧
      (∀ b, b ≠ a → s₁.info b = s.info b) ∧ (∀ b ∈ l ++ [a], s₁.info b ≠ none) ∧
      htAddEntry hashFcn s a key x =
        (s₁.hashAddToBkt { t with tail := a, numItems := t.numItems + 1 } (s₁.bktOf t.numBuckets a) a).bind
          fun s' => some (0, s') := by
  let s₀ := s.store a (some (newEntry hashFcn key x))
  have hself : s₀.info a = some (key, x, key.length, hashFcn key) := info_store_self _
  have hother : ∀ b, b ≠ a → s₀.info b = s.info b := fun b hb => info_store_of_ne hb
  have hne : ∀ b ∈ l, b ≠ a := fun b hb hba => ha (hba ▸ hb)
  have hlive : ∀ b ∈ l ++ [a], s₀.info b ≠ none := by
    intro b hb
    rcases List.mem_append.1 hb with hb | hb
    · rw [hother b (hne b hb)]
      exact (h.live_iff b).2 hb
    · rw [List.mem_singleton.1 hb, hself]
      exact Option.some_ne_none _
  have happ : TwoWay (s₀.ptr .next) (s₀.ptr .prev) s₀.head l :=
    h.app.congr (fun b hb => ptr_store_of_ne (hne b hb)) fun b hb => ptr_store_of_ne (hne b hb)
  have ht₀ : s₀.Tabled l t chain :=
    ⟨ht.tbl_eq, ht.fresh, ht.counted, ht.buckets.congr (fun b hb => ptr_store_of_ne (hne b hb))
      (fun b hb => ptr_store_of_ne (hne b hb)) fun b hb => hother b (hne b hb)⟩
  obtain ⟨s₁, happend, hinfo₁, happ₁, hbuckets₁⟩ := appendItem_spec happ ha hlive ht₀
  have hself₁ : s₁.info a = some (key, x, key.length, hashFcn key) := (congrFun hinfo₁ a).trans hself
  obtain ⟨e, he, -, -, -, hhash, -⟩ := heap_of_info hself₁
  have hbkt : hashToBkt e.hashv t.numBuckets = s₁.bktOf t.numBuckets a := by rw [bktOf_eq hself₁, hhash]
  refine ⟨s₁, happ₁, hbuckets₁, hself₁, fun b hb => (congrFun hinfo₁ b).trans (hother b hb),
    fun b hb => by rw [hinfo₁]; exact hlive b hb, ?_⟩
  rw [htAddEntry, hashAddStr]
  show ((s₀.appendItem a).bind _).bind _ = _
  rw [happend, Option.bind_some]
  dsimp only
  rw [he, Option.bind_eq_bind, Option.bind_some, hbkt]

/-- The entries behind `HASH_ADD_TO_BKT`. -/
theorem Holds.append {s₁ s₂ : UtHash α} (h : Holds hashFcn s l entries) (ha : a ∉ l)
    (happ : TwoWay (s₁.ptr .next) (s₁.ptr .prev) s₁.head (l ++ [a]))
    (hself : s₁.info a = some (key, x, key.length, hashFcn key)) (hother : ∀ b, b ≠ a → s₁.info b = s.info b)
    (hinfo : s₂.info = s₁.info) (hhead : s₂.head = s₁.head) (hprev : s₂.ptr .prev = s₁.ptr .prev)
    (hnext : s₂.ptr .next = s₁.ptr .next) (ht : s₂.Tabled (l ++ [a]) t chain) :
    Holds hashFcn s₂ (l ++ [a]) (entries.add key x) := by
  have hne : ∀ b ∈ l, b ≠ a := fun b hb hba => ha (hba ▸ hb)
  refine ⟨?_, ?_, ?_, t, chain, ht⟩
  · rw [hprev, hnext, hhead]
    exact happ
  · refine List.rel_append (forall₂_imp_of_mem h.stored fun b hb e he => ?_) (.cons ?_ .nil)
    · show s₂.info b = _
      rw [hinfo, hother b (hne b hb)]
      exact he
    · show s₂.info a = _
      rw [hinfo, hself]
  · intro b
    rw [hinfo, List.mem_append, List.mem_singleton]
    by_cases hb : b = a
    · rw [hb, hself]
      simp
    · rw [hother b hb, h.live_iff b]
      simp [hb]

/-- `ht_add_entry`, at an address where there is no entry. -/
theorem Holds.add (h : Holds hashFcn s l entries) (ha : a ∉ l) (key : CString) (x : α) :
    ∃ s', htAddEntry hashFcn s a key x = some (0, s') ∧ Holds hashFcn s' (l ++ [a]) (entries.add key x) := by
  obtain ⟨t, chain, ht⟩ := h.tabled
  obtain ⟨s₁, happ, hbuckets, hself, hother, hlive, hadd⟩ := htAddEntry_eq h ht ha key x
  obtain ⟨s₂, t₂, chain₂, haddto, ht₂, hinfo, hhead, hprev, hnext⟩ :=
    hashAddToBkt_spec (t := { t with tail := a, numItems := t.numItems + 1 }) hbuckets (ht.counted.append a) ha hlive
  refine ⟨s₂, ?_, h.append ha happ hself hother hinfo hhead hprev hnext ht₂⟩
  rw [hadd]
  exact congrArg (Option.bind · _) haddto

/-! ## Finding -/

/-- The key of an entry. -/
def keyAt (s : UtHash α) (a : Addr) : Option CString := (s.info a).map Prod.fst

/-- The first entry of a chain with a key. -/
def firstWith (s : UtHash α) (key : CString) (c : List Addr) : Option Addr := c.find? fun a => s.keyAt a = some key

theorem Holds.exists_stored (h : Holds hashFcn s l entries) (ha : a ∈ l) : ∃ e ∈ entries, Stored hashFcn s a e :=
  exists_of_mem_left h.stored ha

theorem findInBkt_spec {c : List Addr} {fuel : Nat} (hleads : Leads (s.ptr .hhNext) c)
    (hstored : ∀ b ∈ c, ∃ e, Stored hashFcn s b e) (hfuel : c.length ≤ fuel) :
    s.findInBkt key fuel c.head? = some (s.firstWith key c) := by
  induction c generalizing fuel with
  | nil => cases fuel <;> rfl
  | cons a c ih =>
      obtain ⟨fuel, rfl⟩ : ∃ k, fuel = k + 1 := ⟨fuel - 1, by simp at hfuel; omega⟩
      obtain ⟨hnext, hleads'⟩ := Leads.cons_iff.1 hleads
      obtain ⟨e, he⟩ := hstored a List.mem_cons_self
      obtain ⟨en, hen, hkey, -, hlen, -, hlink⟩ := heap_of_info he
      have hmatch : (en.keylen = key.length ∧ en.key.take key.length = key) ↔ s.keyAt a = some key := by
        rw [hkey, hlen, keyAt, he, Option.map_some, Option.some_inj]
        constructor
        · rintro ⟨hlen', htake⟩
          rwa [← hlen', List.take_length] at htake
        · rintro rfl
          exact ⟨rfl, List.take_length⟩
      rw [List.head?_cons, findInBkt, hen, Option.bind_eq_bind, Option.bind_some, firstWith, List.find?_cons]
      by_cases hk : s.keyAt a = some key
      · rw [if_pos (hmatch.2 hk), decide_eq_true hk]
      · rw [if_neg fun hm => hk (hmatch.1 hm), decide_eq_false hk, hlink, hnext]
        exact ih hleads' (fun b hb => hstored b (List.mem_cons_of_mem a hb)) (by simpa using hfuel)

/-- `HASH_FIND_STR` finds the first entry of the chain with the key. -/
theorem hashFindStr_eq (h : Holds hashFcn s l entries) (ht : s.Tabled l t chain) (key : CString) :
    s.hashFindStr hashFcn key = some (s.firstWith key (chain (hashToBkt (hashFcn key) t.numBuckets))) := by
  have hlt : hashToBkt (hashFcn key) t.numBuckets < t.numBuckets := by
    rw [ht.counted.pow_eq]
    exact hashToBkt_lt _ _
  obtain ⟨bk, hbk⟩ := ht.buckets.exists_bucket hlt
  obtain ⟨hchain, -⟩ := ht.buckets.chained hbk
  have hsub : ∀ b ∈ chain (hashToBkt (hashFcn key) t.numBuckets), b ∈ l := fun b hb =>
    ((ht.buckets.mem_iff hlt b).1 hb).1
  by_cases hl : l = []
  · subst hl
    have hnil : chain (hashToBkt (hashFcn key) t.numBuckets) = [] :=
      List.eq_nil_iff_forall_not_mem.2 fun b hb => List.not_mem_nil (hsub b hb)
    rw [hashFindStr, h.app.head_eq, hnil]
    rfl
  · obtain ⟨b, hb⟩ : ∃ b, s.head = some b := by
      cases l with
      | nil => exact absurd rfl hl
      | cons b l => exact ⟨b, h.app.head_eq⟩
    rw [hashFindStr, hb]
    simp only [ht.tbl_eq hl, hbk, Option.bind_eq_bind, Option.bind_some]
    rw [hchain.head_eq]
    have hstored : ∀ b ∈ chain (hashToBkt (hashFcn key) t.numBuckets), ∃ e, Stored hashFcn s b e := fun b hb => by
      obtain ⟨e, -, he⟩ := h.exists_stored (hsub b hb)
      exact ⟨e, he⟩
    refine findInBkt_spec hchain.leads hstored ?_
    · rw [ht.counted.items_eq]
      exact (List.subperm_of_subset hchain.nodup hsub).length_le

theorem keyAt_eq {e : CString × α} (he : Stored hashFcn s a e) : s.keyAt a = some e.1 := by
  rw [keyAt, he]
  rfl

/-- What is found has the key; where nothing is found, no entry has it. -/
theorem hashFindStr_spec (h : Holds hashFcn s l entries) (key : CString) :
    ∃ r, s.hashFindStr hashFcn key = some r ∧ (∀ a, r = some a → a ∈ l ∧ s.keyAt a = some key) ∧
      (r = none ↔ key ∉ entries.keys) := by
  obtain ⟨t, chain, ht⟩ := h.tabled
  have hlt : hashToBkt (hashFcn key) t.numBuckets < t.numBuckets := by
    rw [ht.counted.pow_eq]
    exact hashToBkt_lt _ _
  have hmem := ht.buckets.mem_iff hlt
  refine ⟨_, hashFindStr_eq h ht key, fun a ha => ?_, ?_⟩
  · have hfound := List.find?_some ha
    exact ⟨((hmem a).1 (List.mem_of_find?_eq_some ha)).1, of_decide_eq_true hfound⟩
  · rw [firstWith, List.find?_eq_none]
    constructor
    · intro hnone hkey
      obtain ⟨e, he, rfl⟩ := List.mem_map.1 hkey
      obtain ⟨b, hb, hstored⟩ := exists_of_mem_left h.stored.flip he
      refine hnone b ((hmem b).2 ⟨hb, ?_⟩) (decide_eq_true (keyAt_eq hstored))
      rw [bktOf_eq hstored]
    · intro hkey b hb hfound
      obtain ⟨e, he, hstored⟩ := h.exists_stored ((hmem b).1 hb).1
      refine hkey (List.mem_map.2 ⟨e, he, ?_⟩)
      exact Option.some.inj ((keyAt_eq hstored).symm.trans (of_decide_eq_true hfound))

/-! ## Iterating -/

theorem hashIter_spec {σ : Type} {body : σ → CString → α → σ} {c : List Addr} {es : List (CString × α)}
    {fuel : Nat} (hleads : Leads (s.ptr .next) c) (hstored : List.Forall₂ (Stored hashFcn s) c es)
    (hfuel : c.length ≤ fuel) (args : σ) :
    s.hashIter body fuel c.head? args = some (es.foldl (fun r e => body r e.1 e.2) args) := by
  induction hstored generalizing fuel args with
  | nil => cases fuel <;> rfl
  | @cons a e c es he _ ih =>
      obtain ⟨fuel, rfl⟩ : ∃ k, fuel = k + 1 := ⟨fuel - 1, by simp at hfuel; omega⟩
      obtain ⟨hnext, hleads'⟩ := Leads.cons_iff.1 hleads
      obtain ⟨en, hen, hkey, hdata, -, -, hlink⟩ := heap_of_info he
      rw [List.head?_cons, hashIter, hen, Option.bind_eq_bind, Option.bind_some, hlink, hnext, hkey, hdata]
      exact ih hleads' (by simpa using hfuel) _

/-- `HASH_COUNT` is the number of entries. -/
theorem Holds.htEntryCount_eq (h : Holds hashFcn s l entries) : s.htEntryCount = entries.length := by
  rw [← h.stored.length_eq]
  by_cases hl : l = []
  · subst hl
    rw [htEntryCount, h.app.head_eq]
    rfl
  · obtain ⟨t, chain, ht⟩ := h.tabled
    obtain ⟨b, hb⟩ : ∃ b, s.head = some b := by
      cases l with
      | nil => exact absurd rfl hl
      | cons b l => exact ⟨b, h.app.head_eq⟩
    rw [htEntryCount, hb, ht.tbl_eq hl]
    exact ht.counted.items_eq

/-- `ht_for_each` visits the entries in the order they were added. -/
theorem Holds.htForEach_eq {σ : Type} (h : Holds hashFcn s l entries) (body : σ → CString → α → σ) (args : σ) :
    s.htForEach body args = some (entries.foldl (fun r e => body r e.1 e.2) args) := by
  rw [htForEach, h.htEntryCount_eq, h.app.head_eq]
  exact hashIter_spec h.app.leads h.stored h.stored.length_eq.le args

/-! ## Deleting -/

/-- An entry is taken out of the order of adding. -/
theorem unlinkItem_spec {pre post : List Addr} {e : HtEntry α}
    (happ : TwoWay (s.ptr .next) (s.ptr .prev) s.head (pre ++ a :: post))
    (hlive : ∀ b ∈ pre ++ post, s.info b ≠ none) (hlink : ∀ f, e.link f = s.ptr f a) :
    ∃ s', s.unlinkItem e = some s' ∧ s'.info = s.info ∧ s'.tbl = s.tbl ∧ s'.ptr .hhNext = s.ptr .hhNext ∧
      s'.ptr .hhPrev = s.ptr .hhPrev ∧ TwoWay (s'.ptr .next) (s'.ptr .prev) s'.head (pre ++ post) := by
  have hprev : e.link .prev = pre.getLast? := (hlink .prev).trans (happ.prev_eq rfl)
  have hnext : e.link .next = post.head? := (hlink .next).trans (happ.next_eq rfl)
  have hpost : ∀ b, post.head? = some b → s.info b ≠ none := fun b hb =>
    hlive b (List.mem_append_right _ (List.mem_of_mem_head? hb))
  unfold unlinkItem
  rw [hprev, hnext]
  cases hlast : pre.getLast? with
  | none =>
      have hpre : pre = [] := List.getLast?_eq_none_iff.1 hlast
      subst hpre
      obtain ⟨s₁, hset, hptr, hinfo, hhead, htbl⟩ :=
        setLinkAt_relinked { s with head := post.head? } post.head? .prev none hpost
      refine ⟨s₁, ?_, hinfo, htbl, ?_, ?_, ?_⟩
      · simpa using hset
      · rw [hptr, writeAt_of_link_ne (by decide)]
        rfl
      · rw [hptr, writeAt_of_link_ne (by decide)]
        rfl
      · rw [hhead]
        refine happ.unlink ?_ ?_ ?_ ?_
        · intro b hb
          cases hb
        · intro b hb
          rw [hptr, hb, writeAt_some]
          rfl
        · intro b _ _
          rw [hptr, writeAt_of_link_ne (by decide)]
          rfl
        · intro b _ hb
          rw [hptr, writeAt_of_ne hb]
          rfl
  | some p =>
      have hp : p ∈ pre := List.mem_of_getLast? hlast
      have hpne : pre ≠ [] := List.ne_nil_of_mem hp
      obtain ⟨s₁, hset₁, hptr₁, hinfo₁, hhead₁, htbl₁⟩ :=
        setLink_relinked (s := s) (a := p) (f := .next) (p := post.head?) (hlive p (List.mem_append_left _ hp))
      obtain ⟨s₂, hset₂, hptr₂, hinfo₂, hhead₂, htbl₂⟩ :=
        setLinkAt_relinked s₁ post.head? .prev (some p)
          fun b hb => by rw [hinfo₁]; exact hpost b hb
      refine ⟨s₂, ?_, hinfo₂.trans hinfo₁, htbl₂.trans htbl₁, ?_, ?_, ?_⟩
      · simp only [hset₁, hset₂, Option.bind_eq_bind, Option.bind_some]
      · rw [hptr₂, writeAt_of_link_ne (by decide), hptr₁, write_of_link_ne (by decide)]
      · rw [hptr₂, writeAt_of_link_ne (by decide), hptr₁, write_of_link_ne (by decide)]
      · have hhead : s₂.head = (pre ++ post).head? := by
          rw [hhead₂, hhead₁, happ.head_eq, List.head?_append_of_ne_nil _ hpne, List.head?_append_of_ne_nil _ hpne]
        rw [hhead]
        refine happ.unlink ?_ ?_ ?_ ?_
        · intro b hb
          obtain rfl : p = b := Option.some.inj (hlast.symm.trans hb)
          rw [hptr₂, writeAt_of_link_ne (by decide), hptr₁, write_self]
        · intro b hb
          rw [hptr₂, hb, writeAt_some, hlast]
        · intro b _ hb
          have hbp : b ≠ p := fun h => hb (h ▸ hlast)
          rw [hptr₂, writeAt_of_link_ne (by decide), hptr₁, write_of_ne hbp]
        · intro b _ hb
          rw [hptr₂, writeAt_of_ne hb, hptr₁, write_of_link_ne (by decide)]

/-- An entry is taken out of its bucket. -/
theorem hashDelInBkt_spec {c₁ c₂ : List Addr} {e : HtEntry α}
    (hchain : TwoWay (s.ptr .hhNext) (s.ptr .hhPrev) bk.hhHead (c₁ ++ a :: c₂))
    (hlive : ∀ b ∈ c₁ ++ c₂, s.info b ≠ none) (hnext : e.link .hhNext = s.ptr .hhNext a)
    (hprev : e.link .hhPrev = s.ptr .hhPrev a) :
    ∃ s' bk', s.hashDelInBkt bk a e = some (s', bk') ∧ s'.info = s.info ∧ s'.head = s.head ∧
      s'.ptr .next = s.ptr .next ∧ s'.ptr .prev = s.ptr .prev ∧
      TwoWay (s'.ptr .hhNext) (s'.ptr .hhPrev) bk'.hhHead (c₁ ++ c₂) ∧ bk'.count = bk.count - 1 ∧
      bk'.expandMult = bk.expandMult ∧
      (∀ b, b ∉ c₁ ++ c₂ → s'.ptr .hhNext b = s.ptr .hhNext b ∧ s'.ptr .hhPrev b = s.ptr .hhPrev b) := by
  rw [hchain.prev_eq rfl] at hprev
  rw [hchain.next_eq rfl] at hnext
  have hlast : ∀ b, c₁.getLast? = some b → b ∈ c₁ ++ c₂ := fun b hb =>
    List.mem_append_left _ (List.mem_of_getLast? hb)
  have hfirst : ∀ b, c₂.head? = some b → b ∈ c₁ ++ c₂ := fun b hb =>
    List.mem_append_right _ (List.mem_of_mem_head? hb)
  obtain ⟨s₁, hset₁, hptr₁, hinfo₁, hhead₁, htbl₁⟩ :=
    setLinkAt_relinked s c₁.getLast? .hhNext c₂.head?
      fun b hb => hlive b (hlast b hb)
  obtain ⟨s₂, hset₂, hptr₂, hinfo₂, hhead₂, htbl₂⟩ :=
    setLinkAt_relinked s₁ c₂.head? .hhPrev c₁.getLast?
      fun b hb => by rw [hinfo₁]; exact hlive b (hfirst b hb)
  have hnexts : ∀ b, c₁.getLast? ≠ some b → s₂.ptr .hhNext b = s.ptr .hhNext b := fun b hb => by
    rw [hptr₂, writeAt_of_link_ne (by decide), hptr₁, writeAt_of_ne hb]
  have hprevs : ∀ b, c₂.head? ≠ some b → s₂.ptr .hhPrev b = s.ptr .hhPrev b := fun b hb => by
    rw [hptr₂, writeAt_of_ne hb, hptr₁, writeAt_of_link_ne (by decide)]
  have hhead : (if bk.hhHead = some a then c₂.head? else bk.hhHead) = (c₁ ++ c₂).head? := by
    rw [hchain.head_eq]
    cases c₁ with
    | nil => rw [List.nil_append, List.head?_cons, if_pos rfl, List.nil_append]
    | cons b c₁ =>
        have hba : b ≠ a := by
          rintro rfl
          exact (List.nodup_cons.1 hchain.nodup).1 (List.mem_append_right _ List.mem_cons_self)
        rw [List.cons_append, List.head?_cons, if_neg fun h => hba (Option.some.inj h), List.cons_append,
          List.head?_cons]
  refine ⟨s₂, ⟨(c₁ ++ c₂).head?, bk.count - 1, bk.expandMult⟩, ?_, hinfo₂.trans hinfo₁, hhead₂.trans hhead₁,
    ?_, ?_, ?_, rfl, rfl, fun b hb => ⟨hnexts b fun h => hb (hlast b h), hprevs b fun h => hb (hfirst b h)⟩⟩
  · unfold hashDelInBkt
    rw [hprev, hnext, hhead, hset₁]
    simp only [hset₂, Option.bind_eq_bind, Option.bind_some]
  · rw [hptr₂, writeAt_of_link_ne (by decide), hptr₁, writeAt_of_link_ne (by decide)]
  · rw [hptr₂, writeAt_of_link_ne (by decide), hptr₁, writeAt_of_link_ne (by decide)]
  · refine hchain.unlink (fun b hb => ?_) (fun b hb => ?_) (fun b _ hb => hnexts b hb) fun b _ hb => hprevs b hb
    · rw [hptr₂, writeAt_of_link_ne (by decide), hptr₁, hb, writeAt_some]
    · rw [hptr₂, hb, writeAt_some]

theorem mem_without {β : Type} {p q : List β} {a b : β} (h : (p ++ a :: q).Nodup) :
    b ∈ p ++ q ↔ b ∈ p ++ a :: q ∧ b ≠ a := by
  have hnot : a ∉ p ++ q := (List.nodup_middle.1 h |> List.nodup_cons.1).1
  rw [List.mem_append, List.mem_append, List.mem_cons]
  constructor
  · intro hb
    refine ⟨hb.imp_right Or.inr, ?_⟩
    rintro rfl
    exact hnot (List.mem_append.2 hb)
  · rintro ⟨hb | hb | hb, hne⟩
    · exact .inl hb
    · exact absurd hb hne
    · exact .inr hb

/-- The buckets without an entry. -/
theorem Buckets.remove {pre post c₁ c₂ : List Addr} {bk' : UtBucket}
    (h : s.Buckets buckets n (pre ++ a :: post) chain) (hnodup : (pre ++ a :: post).Nodup)
    (hbk : buckets[s.bktOf n a]? = some bk) (hchain : chain (s.bktOf n a) = c₁ ++ a :: c₂)
    (hinfo : ∀ b, b ≠ a → s'.info b = s.info b)
    (hnew : TwoWay (s'.ptr .hhNext) (s'.ptr .hhPrev) bk'.hhHead (c₁ ++ c₂)) (hcount : bk'.count = bk.count - 1)
    (hsame : ∀ b, b ≠ a → b ∉ c₁ ++ c₂ → s'.ptr .hhNext b = s.ptr .hhNext b ∧ s'.ptr .hhPrev b = s.ptr .hhPrev b) :
    s'.Buckets (buckets.set (s.bktOf n a) bk') n (pre ++ post)
      (Function.update chain (s.bktOf n a) (c₁ ++ c₂)) := by
  have hlt : s.bktOf n a < n := h.lt_of_bucket hbk
  have hbkt : ∀ b, b ≠ a → s'.bktOf n b = s.bktOf n b := fun b hb => by rw [bktOf, bktOf, hinfo b hb]
  obtain ⟨hold, holdcount⟩ := h.chained hbk
  rw [hchain] at hold holdcount
  refine ⟨by rw [List.length_set, h.length_eq], ?_, ?_⟩
  · intro i b hb
    by_cases hi : s.bktOf n a = i
    · subst hi
      obtain rfl : b = bk' := by
        rw [List.getElem?_set_self (h.length_eq.symm ▸ hlt)] at hb
        exact (Option.some.inj hb).symm
      rw [Function.update_self]
      refine ⟨hnew, ?_⟩
      rw [hcount, holdcount, List.length_append, List.length_append, List.length_cons]
      rfl
    · rw [List.getElem?_set_ne hi] at hb
      have hin : i < n := h.lt_of_bucket hb
      have hother : ∀ c ∈ chain i, c ≠ a ∧ c ∉ c₁ ++ c₂ := by
        intro c hc
        have hne : ∀ d ∈ c₁ ++ a :: c₂, c ≠ d := fun d hd =>
          (h.ne_of_mem hlt hin hi (hchain ▸ hd) hc).symm
        exact ⟨hne a (List.mem_append_right _ List.mem_cons_self), fun hmem =>
          hne c ((mem_without hold.nodup).1 hmem).1 rfl⟩
      rw [Function.update_of_ne (Ne.symm hi)]
      exact ⟨(h.chained hb).1.congr (fun c hc => (hsame c (hother c hc).1 (hother c hc).2).1)
        fun c hc => (hsame c (hother c hc).1 (hother c hc).2).2, (h.chained hb).2⟩
  · intro i hi b
    rw [mem_without hnodup]
    by_cases hij : i = s.bktOf n a
    · subst hij
      rw [Function.update_self, mem_without hold.nodup, ← hchain, h.mem_iff hi b]
      constructor
      · rintro ⟨⟨hb, hbi⟩, hne⟩
        exact ⟨⟨hb, hne⟩, (hbkt b hne).trans hbi⟩
      · rintro ⟨⟨hb, hne⟩, hbi⟩
        exact ⟨⟨hb, (hbkt b hne).symm.trans hbi⟩, hne⟩
    · rw [Function.update_of_ne hij, h.mem_iff hi b]
      constructor
      · rintro ⟨hb, hbi⟩
        have hne : b ≠ a := fun hba => hij (hba ▸ hbi.symm)
        exact ⟨⟨hb, hne⟩, (hbkt b hne).trans hbi⟩
      · rintro ⟨⟨hb, hne⟩, hbi⟩
        exact ⟨hb, (hbkt b hne).symm.trans hbi⟩

/-- The chains without an entry. -/
theorem Buckets.update_eq_erase {c₁ c₂ : List Addr} (h : s.Buckets buckets n l chain) (hnodup : (c₁ ++ a :: c₂).Nodup)
    (hcut : chain (s.bktOf n a) = c₁ ++ a :: c₂) {j : Nat} (hj : j < n) :
    Function.update chain (s.bktOf n a) (c₁ ++ c₂) j = (chain j).erase a := by
  by_cases hja : j = s.bktOf n a
  · have hac : a ∉ c₁ := fun hmem => ((mem_without hnodup).1 (List.mem_append_left _ hmem)).2 rfl
    rw [hja, Function.update_self, hcut, List.erase_append_right _ hac, List.erase_cons_head]
  · have hac : a ∉ chain j := fun hmem => hja ((h.mem_iff hj a).1 hmem).2.symm
    rw [Function.update_of_ne hja, List.erase_of_not_mem hac]

/-- The last entry of the others, when the one taken out was the last, and when it was not. -/
theorem Counted.exists_tail {pre post : List Addr} (ht : Counted t (pre ++ a :: post))
    (hnodup : (pre ++ a :: post).Nodup) (hrest : pre ++ post ≠ []) :
    ∃ tail, (if a = t.tail then pre.getLast? else some t.tail) = some tail ∧ (pre ++ post).getLast? = some tail := by
  have hlast := ht.tail_eq (List.append_ne_nil_of_right_ne_nil _ (List.cons_ne_nil _ _))
  rw [List.getLast?_append_cons] at hlast
  cases post with
  | nil =>
      have hpre : pre ≠ [] := fun hp => hrest (by rw [hp, List.append_nil])
      obtain rfl : a = t.tail := Option.some.inj hlast
      obtain ⟨p, hp⟩ := Option.ne_none_iff_exists'.1 fun hn => hpre (List.getLast?_eq_none_iff.1 hn)
      exact ⟨p, by rw [if_pos rfl, hp], by rw [List.append_nil, hp]⟩
  | cons b post =>
      rw [List.getLast?_cons_cons] at hlast
      have hat : a ≠ t.tail := by
        intro hat
        have hmem : a ∈ b :: post := hat ▸ List.mem_of_getLast? hlast
        exact ((mem_without hnodup).1 (List.mem_append_right _ hmem)).2 rfl
      exact ⟨t.tail, if_neg hat, by rw [List.getLast?_append_cons, hlast]⟩

/-- What is left when an entry is out of the order of adding, where the others are `rest`, and out of its bucket, whose
chain was that of `bk` and is now `c`. -/
structure TakenOut (s s' : UtHash α) (rest c : List Addr) (bk bk' : UtBucket) : Prop where
  info_eq : s'.info = s.info
  app : TwoWay (s'.ptr .next) (s'.ptr .prev) s'.head rest
  bucket : TwoWay (s'.ptr .hhNext) (s'.ptr .hhPrev) bk'.hhHead c
  count_eq : bk'.count = bk.count - 1
  mult_eq : bk'.expandMult = bk.expandMult
  others : ∀ b, b ∉ c → s'.ptr .hhNext b = s.ptr .hhNext b ∧ s'.ptr .hhPrev b = s.ptr .hhPrev b

theorem takeOut_spec {pre post c₁ c₂ : List Addr} {e : HtEntry α}
    (happ : TwoWay (s.ptr .next) (s.ptr .prev) s.head (pre ++ a :: post))
    (hchain : TwoWay (s.ptr .hhNext) (s.ptr .hhPrev) bk.hhHead (c₁ ++ a :: c₂))
    (hlive : ∀ b ∈ pre ++ post, s.info b ≠ none) (hchainlive : ∀ b ∈ c₁ ++ c₂, s.info b ≠ none)
    (hlink : ∀ f, e.link f = s.ptr f a) :
    ∃ s₁ s₂ bk', s.unlinkItem e = some s₁ ∧ s₁.hashDelInBkt bk a e = some (s₂, bk') ∧
      TakenOut s s₂ (pre ++ post) (c₁ ++ c₂) bk bk' := by
  obtain ⟨s₁, hunlink, hinfo₁, -, hhhNext₁, hhhPrev₁, happ₁⟩ := unlinkItem_spec happ hlive hlink
  -- The pointers inside the bucket were read before the neighbours in the order of adding were joined.
  have hlinkNext : e.link .hhNext = s₁.ptr .hhNext a := by rw [hhhNext₁, hlink]
  have hlinkPrev : e.link .hhPrev = s₁.ptr .hhPrev a := by rw [hhhPrev₁, hlink]
  rw [← hhhNext₁, ← hhhPrev₁] at hchain
  obtain ⟨s₂, bk', hdel, hinfo₂, hhead₂, hnext₂, hprev₂, hnew, hcount, hmult, hsame⟩ :=
    hashDelInBkt_spec hchain (fun b hb => by rw [hinfo₁]; exact hchainlive b hb) hlinkNext hlinkPrev
  refine ⟨s₁, s₂, bk', hunlink, hdel, hinfo₂.trans hinfo₁, ?_, hnew, hcount, hmult, fun b hb => ?_⟩
  · rw [hnext₂, hprev₂, hhead₂]
    exact happ₁
  · rw [← hhhNext₁, ← hhhPrev₁]
    exact hsame b hb

/-- The table behind `HASH_DEL` and `free`. -/
theorem Tabled.takenOut {pre post c₁ c₂ : List Addr} {bk' : UtBucket} {tail : Addr}
    (ht : s.Tabled (pre ++ a :: post) t chain) (hnodup : (pre ++ a :: post).Nodup)
    (hbk : t.buckets[s.bktOf t.numBuckets a]? = some bk) (hcut : chain (s.bktOf t.numBuckets a) = c₁ ++ a :: c₂)
    (hout : TakenOut s s' (pre ++ post) (c₁ ++ c₂) bk bk') (hrest : pre ++ post ≠ [])
    (htail : (pre ++ post).getLast? = some tail) {t' : UtTable}
    (ht' : t' = { t with
      tail := tail, buckets := t.buckets.set (s.bktOf t.numBuckets a) bk', numItems := t.numItems - 1 }) :
    ((s'.setTable t').store a none).Tabled (pre ++ post) t'
      (Function.update chain (s.bktOf t.numBuckets a) (c₁ ++ c₂)) := by
  subst ht'
  obtain ⟨hchain, -⟩ := ht.buckets.chained hbk
  rw [hcut] at hchain
  refine ⟨fun _ => rfl, fun h => absurd h hrest, ⟨ht.counted.pow_eq, ?_, fun _ => htail⟩, ?_⟩
  · show t.numItems - 1 = _
    rw [ht.counted.items_eq, List.length_append, List.length_append, List.length_cons]
    rfl
  · have hne : ∀ b ∈ c₁ ++ c₂, b ≠ a := fun b hb => ((mem_without hchain.nodup).1 hb).2
    refine ht.buckets.remove hnodup hbk hcut (fun b hb => ?_) ?_ hout.count_eq fun b hb hbc => ?_
    · rw [info_store_of_ne hb]
      exact congrFun hout.info_eq b
    · exact hout.bucket.congr (fun b hb => ptr_store_of_ne (hne b hb)) fun b hb => ptr_store_of_ne (hne b hb)
    · rw [ptr_store_of_ne hb, ptr_store_of_ne hb]
      exact hout.others b hbc

/-- `HASH_DEL` and `free`, for the pointers. -/
theorem hashDel_spec {pre post : List Addr} (happ : TwoWay (s.ptr .next) (s.ptr .prev) s.head (pre ++ a :: post))
    (hall : ∀ b ∈ pre ++ a :: post, s.info b ≠ none) (ht : s.Tabled (pre ++ a :: post) t chain) :
    ∃ s' t' chain', s.hashDel a = some s' ∧ s'.info = s.info ∧
      TwoWay ((s'.store a none).ptr .next) ((s'.store a none).ptr .prev) s'.head (pre ++ post) ∧
      (s'.store a none).Tabled (pre ++ post) t' chain' ∧
      (pre ++ post ≠ [] → t'.numBuckets = t.numBuckets ∧
        (∀ b ∈ t'.buckets, ∃ b' ∈ t.buckets, b.expandMult = b'.expandMult) ∧
        ∀ j < t.numBuckets, chain' j = (chain j).erase a) := by
  have hnodup := happ.nodup
  have hcons : pre ++ a :: post ≠ [] := List.append_ne_nil_of_right_ne_nil _ (List.cons_ne_nil _ _)
  have ha : a ∈ pre ++ a :: post := List.mem_append_right _ List.mem_cons_self
  obtain ⟨y, hy⟩ := Option.ne_none_iff_exists'.1 (hall a ha)
  obtain ⟨en, hen, -, -, -, hhash, hlink⟩ := heap_of_info hy
  have hprev : en.link .prev = pre.getLast? := (hlink .prev).trans (happ.prev_eq rfl)
  have hnext : en.link .next = post.head? := (hlink .next).trans (happ.next_eq rfl)
  unfold hashDel
  rw [hen, ht.tbl_eq hcons]
  by_cases hempty : pre ++ post = []
  · obtain ⟨rfl, rfl⟩ := List.append_eq_nil_iff.1 hempty
    rw [List.getLast?_nil] at hprev
    rw [List.head?_nil] at hnext
    refine ⟨{ s with head := none, tbl := none }, hashMakeTable 0, fun _ => [], ?_, rfl, TwoWay.nil, tabled_nil 0,
      fun h => absurd rfl h⟩
    simp only [hprev, hnext, Option.bind_eq_bind, Option.bind_some, and_self, if_true]
  · have hnot : ¬ (en.link .prev = none ∧ en.link .next = none) := by
      rw [hprev, hnext, List.getLast?_eq_none_iff, List.head?_eq_none_iff]
      rintro ⟨rfl, rfl⟩
      exact hempty rfl
    have hlt : s.bktOf t.numBuckets a < t.numBuckets := by
      rw [ht.counted.pow_eq]
      exact bktOf_lt s _ a
    have hbkt : hashToBkt en.hashv t.numBuckets = s.bktOf t.numBuckets a := by rw [bktOf_eq hy, hhash]
    obtain ⟨bk, hbk⟩ := ht.buckets.exists_bucket hlt
    obtain ⟨c₁, c₂, hcut⟩ := List.append_of_mem ((ht.buckets.mem_iff hlt a).2 ⟨ha, rfl⟩)
    obtain ⟨hchain, -⟩ := ht.buckets.chained hbk
    rw [hcut] at hchain
    have hchainlive : ∀ b ∈ c₁ ++ c₂, s.info b ≠ none := by
      intro b hb
      refine hall b ((ht.buckets.mem_iff hlt b).1 ?_).1
      rw [hcut]
      exact ((mem_without hchain.nodup).1 hb).1
    obtain ⟨tail, htail, htaileq⟩ := ht.counted.exists_tail hnodup hempty
    rw [← hprev] at htail
    obtain ⟨s₁, s₂, bk₂, hunlink, hdel, hout⟩ :=
      takeOut_spec happ hchain (fun b hb => hall b ((mem_without hnodup).1 hb).1) hchainlive hlink
    let t' : UtTable :=
      { t with tail := tail, buckets := t.buckets.set (s.bktOf t.numBuckets a) bk₂, numItems := t.numItems - 1 }
    have hne : ∀ f, ∀ b ∈ pre ++ post, ((s₂.setTable t').store a none).ptr f b = s₂.ptr f b :=
      fun f b hb => ptr_store_of_ne ((mem_without hnodup).1 hb).2
    refine ⟨s₂.setTable t', t', Function.update chain (s.bktOf t.numBuckets a) (c₁ ++ c₂), ?_, hout.info_eq,
      hout.app.congr (hne .next) (hne .prev), ht.takenOut hnodup hbk hcut hout hempty htaileq rfl,
      fun _ => ⟨rfl, fun b hb => ?_, fun j hj => ht.buckets.update_eq_erase hchain.nodup hcut hj⟩⟩
    · simp only [hnot, if_false, Option.bind_eq_bind, Option.bind_some, htail, hunlink, hbkt, hbk, hdel, t']
    · rcases List.mem_or_eq_of_mem_set hb with hb | rfl
      · exact ⟨b, hb, rfl⟩
      · exact ⟨bk, List.mem_of_getElem? hbk, hout.mult_eq⟩

/-- The entries behind `HASH_DEL` and `free`. -/
theorem Holds.without {pre post : List Addr} {e₁ e₂ : Table CString α} {e : CString × α}
    (h : Holds hashFcn s (pre ++ a :: post) (e₁ ++ e :: e₂)) (hlen : pre.length = e₁.length) (hinfo : s'.info = s.info)
    (happ : TwoWay ((s'.store a none).ptr .next) ((s'.store a none).ptr .prev) s'.head (pre ++ post))
    (ht : (s'.store a none).Tabled (pre ++ post) t chain) :
    Holds hashFcn (s'.store a none) (pre ++ post) (e₁ ++ e₂) := by
  have hnodup := h.app.nodup
  have hne : ∀ b ∈ pre ++ post, b ≠ a := fun b hb => ((mem_without hnodup).1 hb).2
  have hstored₁ : List.Forall₂ (Stored hashFcn s) pre e₁ := by
    have htake := List.forall₂_take_append _ _ _ h.stored
    rwa [← hlen, List.take_left] at htake
  have hstored₂ : List.Forall₂ (Stored hashFcn s) (a :: post) (e :: e₂) := by
    have hdrop := List.forall₂_drop_append _ _ _ h.stored
    rwa [← hlen, List.drop_left] at hdrop
  have hpost := (List.forall₂_cons.1 hstored₂).2
  refine ⟨happ, forall₂_imp_of_mem (List.rel_append hstored₁ hpost) fun b hb x hx => ?_, fun b => ?_, t, chain, ht⟩
  · show (s'.store a none).info b = _
    rw [info_store_of_ne (hne b hb), hinfo]
    exact hx
  · rw [mem_without hnodup, ← h.live_iff b]
    by_cases hb : b = a
    · subst hb
      rw [info_store_self]
      simp
    · rw [info_store_of_ne hb, hinfo]
      simp [hb]

/-- `HASH_DEL` and `free`. -/
theorem Holds.del {pre post : List Addr} {e₁ e₂ : Table CString α} {e : CString × α}
    (h : Holds hashFcn s (pre ++ a :: post) (e₁ ++ e :: e₂)) (hlen : pre.length = e₁.length) :
    ∃ s', s.hashDel a = some s' ∧ Holds hashFcn (s'.store a none) (pre ++ post) (e₁ ++ e₂) := by
  obtain ⟨t, chain, ht⟩ := h.tabled
  obtain ⟨s', t', chain', hdel, hinfo, happ, ht', -⟩ := hashDel_spec h.app (fun b => (h.live_iff b).2) ht
  exact ⟨s', hdel, h.without hlen hinfo happ ht'⟩

/-- `ht_free` frees every entry. -/
theorem Holds.htFree_spec (h : Holds hashFcn s l entries) :
    ∃ s', s.htFree = some s' ∧ Holds hashFcn s' [] [] := by
  rw [htFree, h.htEntryCount_eq, ← h.stored.length_eq, h.app.head_eq]
  induction l generalizing s entries with
  | nil =>
      obtain rfl : entries = [] := List.forall₂_nil_left_iff.1 h.stored
      exact ⟨s, rfl, h⟩
  | cons a l ih =>
      obtain ⟨e, es, he, -, rfl⟩ := List.forall₂_cons_left_iff.1 h.stored
      obtain ⟨en, hen, -, -, -, -, hlink⟩ := heap_of_info he
      have hfirst : Holds hashFcn s ([] ++ a :: l) ([] ++ e :: es) := h
      have hnext : en.link .next = l.head? := (hlink .next).trans (hfirst.app.next_eq rfl)
      obtain ⟨s₁, hdel, h₁⟩ := hfirst.del rfl
      obtain ⟨s', hfree, hs'⟩ := ih h₁
      refine ⟨s', ?_, hs'⟩
      rw [List.head?_cons, List.length_cons, freeFrom, hen, Option.bind_eq_bind, Option.bind_some, hdel,
        Option.bind_eq_bind, Option.bind_some, hnext]
      exact hfree

end UtHash
end CUtil
end Raiezau
