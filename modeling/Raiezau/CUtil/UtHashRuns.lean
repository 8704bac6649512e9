import Mathlib.Data.Set.Card
import Raiezau.CUtil.UtHashTable
import Raiezau.Machine.Run

/-!
# UtHashRuns — any calls on one table

A run of calls answers as a table of entries in the order of adding does, where a key that was added more than
once may stand for any of its entries.  Two conditions decide for which one: the keys are distinct, or the table
never holds ten entries.
-/

namespace Raiezau
namespace CUtil
namespace UtHash

open Assoc Memory Machine

variable {α : Type}

/-! ## Calls -/

/-- The calls on one table. -/
inductive Call (α : Type)
  | addEntry (key : CString) (data : α)
  | addUniqueEntry (key : CString) (data : α)
  | removeEntry (key : CString)
  | hasEntry (key : CString)
  | getEntry (key : CString)
  | entryCount
  | toList
  | forEach

/-- What a call returns; for `ht_for_each`, what it visits. -/
inductive Answer (α : Type)
  | code (n : Int)
  | has (found : Bool)
  | data (ret : Option α)
  | count (n : Nat)
  | list (l : List α)
  | visited (l : List (CString × α))

/-- The key a call looks for. -/
def Call.key : Call α → CString
  | .addEntry key _ => key
  | .addUniqueEntry key _ => key
  | .removeEntry key => key
  | .hasEntry key => key
  | .getEntry key => key
  | .entryCount => []
  | .toList => []
  | .forEach => []

/-- The calls that may add an entry. -/
def Call.adds : Call α → Bool
  | .addEntry _ _ => true
  | .addUniqueEntry _ _ => true
  | _ => false

/-- A call; `entry` is what `malloc` returns to it. -/
def call (hashFcn : CString → UInt32) (s : UtHash α) (entry : Addr) : Call α → Option (Answer α × UtHash α)
  | .addEntry key data => (htAddEntry hashFcn s entry key data).map fun r => (.code r.1, r.2)
  | .addUniqueEntry key data => (htAddUniqueEntry hashFcn s entry key data).map fun r => (.code r.1, r.2)
  | .removeEntry key => (htRemoveEntry hashFcn s key).map fun r => (.code r.1, r.2)
  | .hasEntry key => (htHasEntry hashFcn s key).map fun b => (.has b, s)
  | .getEntry key => (htGetEntry hashFcn s key).map fun ret => (.data ret, s)
  | .entryCount => some (.count s.htEntryCount, s)
  | .toList => s.htToList.map fun l => (.list l, s)
  | .forEach => (s.htForEach (fun l key x => l ++ [(key, x)]) []).map fun l => (.visited l, s)

/-- A call at an address where there is nothing, and its answer. -/
def Step (hashFcn : CString → UInt32) (s : UtHash α) (e : Call α × Answer α) (s' : UtHash α) : Prop :=
  ∃ entry, s.heap entry = none ∧ s.call hashFcn entry e.1 = some (e.2, s')

/-- What a call does to a table of entries, where `found` is the place of the entry found under its key. -/
def tableCall (entries : Table CString α) (found : Option Nat) : Call α → Answer α × Table CString α
  | .addEntry key data => (.code 0, entries.add key data)
  | .addUniqueEntry key data =>
      match found with
      | none => (.code 0, entries.add key data)
      | some _ => (.code (-1), entries)
  | .removeEntry _ =>
      match found with
      | none => (.code (-1), entries)
      | some i => (.code 0, entries.eraseIdx i)
  | .hasEntry _ => (.has found.isSome, entries)
  | .getEntry _ => (.data (found.bind fun i => entries[i]?.map Prod.snd), entries)
  | .entryCount => (.count entries.length, entries)
  | .toList => (.list entries.values.reverse, entries)
  | .forEach => (.visited entries, entries)

/-- A call on a table, where `finds` tells which entries may be found under a key. -/
def TableStep (finds : Table CString α → CString → Option Nat → Prop) (entries : Table CString α)
    (e : Call α × Answer α) (entries' : Table CString α) : Prop :=
  ∃ found, finds entries e.1.key found ∧ tableCall entries found e.1 = (e.2, entries')

/-- The place of some entry with the key, if there is one. -/
def Finds (entries : Table CString α) (key : CString) (found : Option Nat) : Prop :=
  (found = none ↔ key ∉ entries.keys) ∧ ∀ i, found = some i → ∃ x, entries[i]? = some (key, x)

/-- The place of the last entry with the key. -/
def FindsLast (entries : Table CString α) (key : CString) (found : Option Nat) : Prop :=
  Finds entries key found ∧ ∀ i, found = some i → ∀ j x, entries[j]? = some (key, x) → j ≤ i

variable {hashFcn : CString → UInt32} {s s' : UtHash α} {a entry : Addr} {l : List Addr} {t : UtTable}
  {chain : Nat → List Addr} {entries : Table CString α} {key : CString} {x : α} {r : Option Addr}
  {found : Option Nat} {c : Call α} {n i : Nat}

/-! ## One call -/

theorem Holds.delAt (h : Holds hashFcn s l entries) (ha : l[i]? = some a) :
    ∃ s', s.hashDel a = some s' ∧ Holds hashFcn (s'.store a none) (l.eraseIdx i) (entries.eraseIdx i) := by
  obtain ⟨e, he, -⟩ := exists_getElem?_right h.stored ha
  obtain ⟨hi, rfl⟩ := List.getElem?_eq_some_iff.1 ha
  obtain ⟨hi', rfl⟩ := List.getElem?_eq_some_iff.1 he
  rw [List.eraseIdx_eq_take_drop_succ, List.eraseIdx_eq_take_drop_succ]
  refine Holds.del (e := entries[i]) ?_ (by rw [List.length_take, List.length_take, h.stored.length_eq])
  rwa [List.getElem_cons_drop, List.take_append_drop, List.getElem_cons_drop, List.take_append_drop]

theorem not_mem_of_heap (h : Holds hashFcn s l entries) (hentry : s.heap entry = none) : entry ∉ l := fun hmem =>
  (h.live_iff entry).2 hmem (info_eq_none_iff.2 hentry)

/-- `ht_get_entry` returns the data of the entry found. -/
theorem Holds.htGetEntry_eq (h : Holds hashFcn s l entries) (hr : s.hashFindStr hashFcn key = some r)
    (hfound : Option.Rel (fun a i => l[i]? = some a) r found) :
    s.htGetEntry hashFcn key = some (found.bind fun i => entries[i]?.map Prod.snd) := by
  rw [htGetEntry, hr, Option.bind_eq_bind, Option.bind_some]
  cases hfound with
  | none => rfl
  | some ha =>
      obtain ⟨e, he, hstored⟩ := exists_getElem?_right h.stored ha
      obtain ⟨en, hen, -, hdata, -⟩ := heap_of_info hstored
      dsimp only
      rw [hen, Option.bind_eq_bind, Option.bind_some, hdata, Option.bind_some, he]
      rfl

/-- A call does to the entries in memory what it does to the table, whatever is kept of them when one is added and
when one is deleted. -/
theorem Holds.call_eq {R : UtHash α → Table CString α → Prop} (h : Holds hashFcn s l entries) (hrep : R s entries)
    (hadd : c.adds = true → ∀ key x, ∃ s', htAddEntry hashFcn s entry key x = some (0, s') ∧ R s' (entries.add key x))
    (hdel : ∀ {a i}, l[i]? = some a → ∃ s', s.hashDel a = some s' ∧ R (s'.store a none) (entries.eraseIdx i))
    (hr : s.hashFindStr hashFcn c.key = some r) (hfound : Option.Rel (fun a i => l[i]? = some a) r found) :
    ∃ s', s.call hashFcn entry c = some ((tableCall entries found c).1, s') ∧ R s' (tableCall entries found c).2 := by
  cases c with
  | addEntry key x =>
      obtain ⟨s', hadd, h'⟩ := hadd rfl key x
      exact ⟨s', by rw [call, hadd]; rfl, h'⟩
  | addUniqueEntry key x =>
      obtain ⟨s', hadd, h'⟩ := hadd rfl key x
      rw [Call.key] at hr
      cases hfound with
      | none => exact ⟨s', by rw [call, htAddUniqueEntry, hr, Option.bind_eq_bind, Option.bind_some, hadd]; rfl, h'⟩
      | some => exact ⟨s, by rw [call, htAddUniqueEntry, hr]; rfl, hrep⟩
  | removeEntry key =>
      rw [Call.key] at hr
      cases hfound with
      | none => exact ⟨s, by rw [call, htRemoveEntry, hr]; rfl, hrep⟩
      | some ha =>
          obtain ⟨s', hdel, h'⟩ := hdel ha
          refine ⟨_, ?_, h'⟩
          rw [call, htRemoveEntry, hr, Option.bind_eq_bind, Option.bind_some]
          dsimp only
          rw [hdel]
          rfl
  | hasEntry key =>
      rw [Call.key] at hr
      refine ⟨s, ?_, hrep⟩
      rw [call, htHasEntry, hr]
      cases hfound <;> rfl
  | getEntry key =>
      rw [Call.key] at hr
      exact ⟨s, by rw [call, h.htGetEntry_eq hr hfound]; rfl, hrep⟩
  | entryCount => exact ⟨s, by rw [call, h.htEntryCount_eq]; rfl, hrep⟩
  | toList =>
      refine ⟨s, ?_, hrep⟩
      have hfold : ∀ (es : Table CString α) (acc : List α),
          es.foldl (fun r e => e.2 :: r) acc = es.values.reverse ++ acc := by
        intro es
        induction es with
        | nil => exact fun acc => rfl
        | cons e es ih => exact fun acc => by simp [ih, Table.values]
      rw [call, htToList, h.htForEach_eq, hfold, List.append_nil]
      rfl
  | forEach =>
      refine ⟨s, ?_, hrep⟩
      have hfold : ∀ es acc : Table CString α, es.foldl (fun r e => r ++ [(e.1, e.2)]) acc = acc ++ es := by
        intro es
        induction es with
        | nil => exact fun acc => (List.append_nil acc).symm
        | cons e es ih => exact fun acc => by simp [ih]
      rw [call, h.htForEach_eq, hfold, List.nil_append]
      rfl

/-- The entry found, and its place. -/
theorem Holds.exists_found (h : Holds hashFcn s l entries) (key : CString) :
    ∃ r found, s.hashFindStr hashFcn key = some r ∧ Option.Rel (fun a i => l[i]? = some a) r found ∧
      Finds entries key found := by
  obtain ⟨r, hr, hsome, hnone⟩ := hashFindStr_spec h key
  cases r with
  | none => exact ⟨none, none, hr, .none, iff_of_true rfl (hnone.1 rfl), fun i hi => by cases hi⟩
  | some a =>
      obtain ⟨hmem, hkey⟩ := hsome a rfl
      obtain ⟨i, ha⟩ := List.getElem?_of_mem hmem
      obtain ⟨e, he, hstored⟩ := exists_getElem?_right h.stored ha
      obtain rfl : e.1 = key := Option.some.inj ((keyAt_eq hstored).symm.trans hkey)
      refine ⟨some a, some i, hr, .some ha, ⟨fun h => absurd h (Option.some_ne_none i), fun hk => ?_⟩, fun j hj => ?_⟩
      · exact absurd (hnone.2 hk) (Option.some_ne_none a)
      · obtain rfl := Option.some.inj hj
        exact ⟨e.2, he⟩

/-! ## Runs -/

/-- The entries in memory, wherever they are, are those of the table. -/
def Represents (hashFcn : CString → UInt32) (s : UtHash α) (entries : Table CString α) : Prop :=
  ∃ l, Holds hashFcn s l entries

theorem represents_create : Represents hashFcn (htCreate : UtHash α) [] := ⟨[], holds_create⟩

/-- Every call goes through, and does what it does to the table for whichever entry is found. -/
theorem Represents.call_eq (hrep : Represents hashFcn s entries) (hentry : s.heap entry = none) (c : Call α) :
    ∃ found s', Finds entries c.key found ∧ s.call hashFcn entry c = some ((tableCall entries found c).1, s') ∧
      Represents hashFcn s' (tableCall entries found c).2 := by
  obtain ⟨l, h⟩ := hrep
  obtain ⟨r, found, hr, hfound, hfinds⟩ := h.exists_found c.key
  have hadd : c.adds = true → ∀ key x, ∃ s', htAddEntry hashFcn s entry key x = some (0, s') ∧
      Represents hashFcn s' (entries.add key x) := by
    intro _ key x
    obtain ⟨s', hadd, h'⟩ := h.add (not_mem_of_heap h hentry) key x
    exact ⟨s', hadd, _, h'⟩
  have hdel : ∀ {a i}, l[i]? = some a → ∃ s', s.hashDel a = some s' ∧
      Represents hashFcn (s'.store a none) (entries.eraseIdx i) := by
    intro a i ha
    obtain ⟨s', hdel, h'⟩ := h.delAt ha
    exact ⟨s', hdel, _, h'⟩
  obtain ⟨s', hcall, hrep'⟩ := h.call_eq ⟨l, h⟩ hadd hdel hr hfound
  exact ⟨found, s', hfinds, hcall, hrep'⟩

theorem Represents.step {e : Call α × Answer α} (hrep : Represents hashFcn s entries)
    (hstep : Step hashFcn s e s') :
    ∃ entries', TableStep Finds entries e entries' ∧ Represents hashFcn s' entries' := by
  obtain ⟨entry, hentry, hcall⟩ := hstep
  obtain ⟨found, s₁, hfinds, hcall₁, hrep₁⟩ := hrep.call_eq hentry e.1
  obtain ⟨hanswer, rfl⟩ := Prod.mk.inj (Option.some.inj (hcall₁.symm.trans hcall))
  exact ⟨_, ⟨found, hfinds, Prod.ext hanswer rfl⟩, hrep₁⟩

/-- There is always a free address. -/
theorem Represents.exists_free (hrep : Represents hashFcn s entries) : ∃ a, s.heap a = none := by
  obtain ⟨l, h⟩ := hrep
  obtain ⟨a, ha⟩ := Infinite.exists_notMem_finset l.toFinset
  exact ⟨a, info_eq_none_iff.1 (Classical.not_not.1 fun hlive =>
    ha (List.mem_toFinset.2 ((h.live_iff a).1 hlive)))⟩

/-- Any calls can be made one after the other. -/
theorem exists_run (hashFcn : CString → UInt32) (calls : List (Call α)) :
    ∃ h s, Run (Step hashFcn) htCreate h s ∧ h.map (fun p => p.2.1) = calls.reverse := by
  suffices hgen : ∀ (rest : List (Call α)) {h s entries}, Run (Step hashFcn) htCreate h s →
      Represents hashFcn s entries → ∃ h' s', Run (Step hashFcn) htCreate h' s' ∧
        h'.map (fun p => p.2.1) = rest.reverse ++ h.map (fun p => p.2.1) by
    simpa using hgen calls .start represents_create
  intro rest
  induction rest with
  | nil => exact fun hrun _ => ⟨_, _, hrun, rfl⟩
  | cons c rest ih =>
      intro h s entries hrun hrep
      obtain ⟨entry, hfree⟩ := hrep.exists_free
      obtain ⟨found, s₁, -, hcall, hrep₁⟩ := hrep.call_eq hfree c
      obtain ⟨h', s', hrun', hcalls⟩ := ih (hrun.next (e := (c, _)) ⟨entry, hfree, hcall⟩) hrep₁
      refine ⟨h', s', hrun', ?_⟩
      rw [hcalls, List.reverse_cons, List.append_assoc]
      rfl

/-- The entries in memory are as many as those of the table. -/
theorem Holds.encard_eq (h : Holds hashFcn s l entries) : {b | s.heap b ≠ none}.encard = entries.length := by
  have hset : {b | s.heap b ≠ none} = (l.toFinset : Set Addr) := by
    ext b
    rw [Set.mem_ofPred_eq, ne_eq, ← info_eq_none_iff, Finset.mem_coe, List.mem_toFinset]
    exact h.live_iff b
  rw [hset, Set.encard_coe_eq_coe_finsetCard, List.toFinset_card_of_nodup h.app.nodup, h.stored.length_eq]

/-- Any run of calls, with whatever keys and hash function: the answers are those of a table in the order of adding,
there is one entry in memory for each of its entries, no call reads a freed one, and `ht_free` frees them all. -/
theorem run_as_table {h : History (UtHash α) (Call α × Answer α)} (hrun : Run (Step hashFcn) htCreate h s) :
    ∃ h' entries, Run (TableStep Finds) [] h' entries ∧ h'.map Prod.snd = h.map Prod.snd ∧
      {b | s.heap b ≠ none}.encard = entries.length ∧
      (∀ entry c, s.heap entry = none → ∃ out s', s.call hashFcn entry c = some (out, s')) ∧
      ∃ s', s.htFree = some s' ∧ ∀ b, s'.heap b = none := by
  obtain ⟨h', entries, hrun', ⟨l, hholds⟩, hevents⟩ := @Run.simulated _ _ (Step hashFcn) _ _ _ _ (TableStep Finds) _ _
    represents_create Represents.step hrun
  obtain ⟨s', hfree, h₀⟩ := hholds.htFree_spec
  refine ⟨h', entries, hrun', hevents, hholds.encard_eq, fun entry c hentry => ?_, s', hfree, fun b => ?_⟩
  · obtain ⟨found, s₁, -, hcall, -⟩ := Represents.call_eq ⟨l, hholds⟩ hentry c
    exact ⟨_, s₁, hcall⟩
  · exact info_eq_none_iff.1 (Classical.not_not.1 fun hlive => List.not_mem_nil ((h₀.live_iff b).1 hlive))

theorem run_as_table_same_key : ∃ (h : History (UtHash Nat) (Call Nat × Answer Nat)) (s : UtHash Nat),
    Run (Step HashJen.hash) htCreate h s ∧
      h.map Prod.snd = [(.getEntry ['p'], .data (some 2)), (.addEntry ['p'] 2, .code 0), (.addEntry ['p'] 1, .code 0)] ∧
      ∃ h' entries, Run (TableStep Finds) [] h' entries ∧ h'.map Prod.snd = h.map Prod.snd ∧
        {b | s.heap b ≠ none}.encard = entries.length ∧
        (∀ entry c, s.heap entry = none → ∃ out s', s.call HashJen.hash entry c = some (out, s')) ∧
        ∃ s', s.htFree = some s' ∧ ∀ b, s'.heap b = none := by
  have hrun₁ : Run (Step HashJen.hash) (htCreate : UtHash Nat) [] htCreate := .start
  have hrun₂ := hrun₁.next (e := (.addEntry ['p'] 1, .code 0)) ⟨0, rfl, rfl⟩
  have hrun₃ := hrun₂.next (e := (.addEntry ['p'] 2, .code 0)) ⟨1, rfl, rfl⟩
  have hrun₄ := hrun₃.next (e := (.getEntry ['p'], .data (some 2))) ⟨2, rfl, rfl⟩
  exact ⟨_, _, hrun₄, rfl, run_as_table hrun₄⟩

/-! ## Distinct keys -/

/-- A call on the table of `HashTable`. -/
def hashTableCall (h : HashTable α) : Call α → Answer α × HashTable α
  | .addEntry key data => (.code 0, CUtil.htAddEntry h key data)
  | .addUniqueEntry key data =>
      (.code (if (CUtil.htGetEntry h key).isSome then -1 else 0), CUtil.htAddUniqueEntry h key data)
  | .removeEntry key => (.code (if (CUtil.htGetEntry h key).isSome then 0 else -1), CUtil.htRemoveEntry h key)
  | .hasEntry key => (.has (CUtil.htGetEntry h key).isSome, h)
  | .getEntry key => (.data (CUtil.htGetEntry h key), h)
  | .entryCount => (.count h.length, h)
  | .toList => (.list (CUtil.htToList h), h)
  | .forEach => (.visited h, h)

/-- `ht_add_entry` is not called with a key that is there. -/
def AddsNew (hashFcn : CString → UInt32) (_ : History (UtHash α) (Call α × Answer α)) (s : UtHash α)
    (e : Call α × Answer α) : Prop :=
  ∀ key x, e.1 = .addEntry key x → s.htHasEntry hashFcn key = some false

/-- With distinct keys there is one entry to find. -/
theorem Finds.of_unique (hu : entries.UniqueKeys) (h : Finds entries key found) :
    (∀ {p : CString × α → Bool}, (∀ e, p e = true ↔ e.1 = key) → entries.findIdx? p = found) ∧
      (found.bind fun i => entries[i]?.map Prod.snd) = entries.lookup key := by
  cases found with
  | none =>
      have hkey : key ∉ entries.keys := h.1.1 rfl
      refine ⟨fun hp => List.findIdx?_eq_none_iff.2 fun e he => ?_, (Table.lookup_eq_none_iff.2 hkey).symm⟩
      exact Bool.eq_false_iff.2 fun hpe => hkey ((hp e).1 hpe ▸ Table.mem_keys_of_mem he)
  | some i =>
      obtain ⟨x, hx⟩ := h.2 i rfl
      obtain ⟨hi, hxi⟩ := List.getElem?_eq_some_iff.1 hx
      refine ⟨fun hp => List.findIdx?_eq_some_iff_getElem.2 ⟨hi, (hp _).2 (congrArg Prod.fst hxi), fun j hj => ?_⟩, ?_⟩
      · intro hpj
        have hlen : ∀ {k}, k < entries.length → k < (entries.map Prod.fst).length := fun hk => by
          rwa [List.length_map]
        have hnodup : (entries.map Prod.fst).Nodup := hu
        have hi' : i < (entries.map Prod.fst).length := hlen hi
        have hj' : j < (entries.map Prod.fst).length := hlen (hj.trans hi)
        have hsame : (entries.map Prod.fst)[j] = (entries.map Prod.fst)[i] := by
          rw [List.getElem_map, List.getElem_map, (hp _).1 hpj, hxi]
        have hij : j = i := hnodup.getElem_inj_iff.1 hsame
        exact absurd hij (Nat.ne_of_lt hj)
      · rw [Option.bind_some, hx, Table.lookup_of_mem hu (List.mem_of_getElem? hx)]
        rfl

theorem tableCall_eq (hu : entries.UniqueKeys) (h : Finds entries c.key found) :
    tableCall entries found c = hashTableCall entries c := by
  obtain ⟨hidx, hget⟩ := h.of_unique hu
  have hnone : (entries.lookup c.key).isSome = found.isSome := by
    rw [← hget]
    cases found with
    | none => rfl
    | some i =>
        obtain ⟨x, hx⟩ := h.2 i rfl
        rw [Option.bind_some, hx]
        rfl
  cases c with
  | addEntry key x => rfl
  | addUniqueEntry key x =>
      dsimp only [Call.key] at hnone
      rw [hashTableCall, CUtil.htGetEntry, CUtil.htAddUniqueEntry, Table.insertNew, hnone]
      cases found <;> rfl
  | removeEntry key =>
      dsimp only [Call.key] at hnone
      rw [hashTableCall, CUtil.htGetEntry, CUtil.htRemoveEntry, Table.erase, List.eraseP_eq_eraseIdx, hnone]
      generalize hfind : entries.findIdx? _ = place
      obtain rfl : place = found := hfind.symm.trans (hidx fun e => decide_eq_true_iff)
      cases place <;> rfl
  | hasEntry key =>
      dsimp only [Call.key] at hnone
      rw [hashTableCall, CUtil.htGetEntry, hnone]
      rfl
  | getEntry key =>
      dsimp only [Call.key] at hget
      rw [hashTableCall, CUtil.htGetEntry, ← hget]
      rfl
  | entryCount => rfl
  | toList =>
      rw [hashTableCall, htToList_eq_reverse]
      rfl
  | forEach => rfl

/-- The keys stay distinct. -/
theorem uniqueKeys_hashTableCall (hu : entries.UniqueKeys)
    (hnew : ∀ key x, c = .addEntry key x → entries.lookup key = none) : (hashTableCall entries c).2.UniqueKeys := by
  cases c with
  | addEntry key x => exact hu.add (hnew key x rfl) x
  | addUniqueEntry key x => exact hu.insertNew key x
  | removeEntry key => exact hu.erase key
  | hasEntry key => exact hu
  | getEntry key => exact hu
  | entryCount => exact hu
  | toList => exact hu
  | forEach => exact hu

/-- `ht_has_entry` tells whether the key is in the table. -/
theorem Represents.htHasEntry_eq (hrep : Represents hashFcn s entries) (key : CString) :
    s.htHasEntry hashFcn key = some (entries.lookup key).isSome := by
  obtain ⟨l, h⟩ := hrep
  obtain ⟨r, hr, -, hnone⟩ := hashFindStr_spec h key
  rw [← Table.lookup_eq_none_iff] at hnone
  rw [htHasEntry, hr, Option.map_some]
  cases r with
  | none => rw [hnone.1 rfl]; rfl
  | some a =>
      have hne : entries.lookup key ≠ none := fun h => Option.some_ne_none a (hnone.2 h)
      rw [Option.isSome_some, Option.isSome_iff_ne_none.2 hne]

theorem Represents.step_unique {h : History (UtHash α) (Call α × Answer α)} {e : Call α × Answer α}
    (hrep : Represents hashFcn s entries ∧ entries.UniqueKeys) (hok : AddsNew hashFcn h s e)
    (hstep : Step hashFcn s e s') :
    ∃ entries', hashTableCall entries e.1 = (e.2, entries') ∧ Represents hashFcn s' entries' ∧ entries'.UniqueKeys := by
  obtain ⟨hrep, hu⟩ := hrep
  obtain ⟨entries', ⟨found, hfinds, hcall⟩, hrep'⟩ := hrep.step hstep
  have hkeys := uniqueKeys_hashTableCall (c := e.1) hu fun key x he => by
    have hhas := (hrep.htHasEntry_eq key).symm.trans (hok key x he)
    simpa using hhas
  rw [tableCall_eq hu hfinds] at hcall
  rw [hcall] at hkeys
  exact ⟨entries', hcall, hrep', hkeys⟩

/-- Where no key is added twice, the entries in memory and the table of `HashTable` cannot be told apart. -/
theorem run_as_hashTable {h : History (UtHash α) (Call α × Answer α)} (hrun : Run (Step hashFcn) htCreate h s)
    (hok : StepsMeet (AddsNew hashFcn) h) :
    ∃ h' entries, Run (fun (t : HashTable α) e t' => hashTableCall t e.1 = (e.2, t')) CUtil.htCreate h' entries ∧
      h'.map Prod.snd = h.map Prod.snd := by
  obtain ⟨h', entries, hrun', -, hevents⟩ :=
    @Run.simulated_of_stepsMeet _ _ (Step hashFcn) _ _ _ (AddsNew hashFcn) _
      (fun (t : HashTable α) e t' => hashTableCall t e.1 = (e.2, t')) _
      (fun s entries => Represents hashFcn s entries ∧ entries.UniqueKeys) ⟨represents_create, List.nodup_nil⟩
      Represents.step_unique hrun hok
  exact ⟨h', entries, hrun', hevents⟩

theorem run_as_hashTable_removed : ∃ (h : History (UtHash Nat) (Call Nat × Answer Nat)) (s : UtHash Nat),
    Run (Step HashJen.hash) htCreate h s ∧
      h.map Prod.snd = [(.hasEntry ['a'], .has false), (.removeEntry ['a'], .code 0), (.addEntry ['b'] 2, .code 0),
        (.addUniqueEntry ['a'] 1, .code 0)] ∧
      ∃ h' entries, Run (fun (t : HashTable Nat) e t' => hashTableCall t e.1 = (e.2, t')) CUtil.htCreate h' entries ∧
        h'.map Prod.snd = h.map Prod.snd := by
  have hrun₁ : Run (Step HashJen.hash) (htCreate : UtHash Nat) [] htCreate := .start
  have hrun₂ := hrun₁.next (e := (.addUniqueEntry ['a'] 1, .code 0)) ⟨0, rfl, rfl⟩
  have hrun₃ := hrun₂.next (e := (.addEntry ['b'] 2, .code 0)) ⟨1, rfl, rfl⟩
  have hrun₄ := hrun₃.next (e := (.removeEntry ['a'], .code 0)) ⟨2, rfl, rfl⟩
  have hrun₅ := hrun₄.next (e := (.hasEntry ['a'], .has false)) ⟨2, rfl, rfl⟩
  refine ⟨_, _, hrun₅, rfl, run_as_hashTable hrun₅ ⟨?_, ?_, ?_, ?_, trivial⟩⟩ <;>
    · intro key x hcall
      cases hcall <;> rfl

/-! ## Fewer than ten entries -/

/-- No bucket was ever full: every chain has the last entry in front. -/
structure Few (s : UtHash α) (l : List Addr) (t : UtTable) (chain : Nat → List Addr) : Prop where
  mult_eq : ∀ b ∈ t.buckets, b.expandMult = 0
  chain_eq : ∀ {j}, j < t.numBuckets → chain j = s.lastFirst t.numBuckets l j

theorem few_nil (a : Addr) : s.Few [] (hashMakeTable a) fun _ => [] where
  mult_eq b hb := by rw [List.eq_of_mem_replicate hb]
  chain_eq _ := rfl

/-- `ht_add_entry` on a table of at most eight entries does not double the buckets. -/
theorem Holds.add_few (h : Holds hashFcn s l entries) (ht : s.Tabled l t chain) (hfew : s.Few l t chain)
    (hlen : l.length < 9) (ha : a ∉ l) (key : CString) (x : α) :
    ∃ s' t' chain', htAddEntry hashFcn s a key x = some (0, s') ∧
      Holds hashFcn s' (l ++ [a]) (entries.add key x) ∧ s'.Tabled (l ++ [a]) t' chain' ∧ s'.Few (l ++ [a]) t' chain' := by
  obtain ⟨s₁, happ, hbuckets, hself, hother, hlive, hadd⟩ := htAddEntry_eq h ht ha key x
  have hlt : s₁.bktOf t.numBuckets a < t.numBuckets := by
    rw [ht.counted.pow_eq]
    exact bktOf_lt s₁ _ a
  have hl : l ++ [a] ≠ [] := List.append_ne_nil_of_right_ne_nil _ (List.cons_ne_nil _ _)
  have hne : ∀ b ∈ l, b ≠ a := fun b hb hba => ha (hba ▸ hb)
  obtain ⟨bk, hbk⟩ := hbuckets.exists_bucket hlt
  have hmult : bk.expandMult = 0 := hfew.mult_eq bk (List.mem_of_getElem? hbk)
  obtain ⟨hchain, hcount⟩ := hbuckets.chained hbk
  have hsub : (chain (s₁.bktOf t.numBuckets a)).length ≤ l.length :=
    (List.subperm_of_subset hchain.nodup fun b hb => ((hbuckets.mem_iff hlt b).1 hb).1).length_le
  obtain ⟨s₂, hbuckets₂, hinfo, hhead, hprev, hnext, haddto⟩ :=
    hashAddToBkt_eq (t := { t with tail := a, numItems := t.numItems + 1 }) hbuckets ha
      (hlive a (List.mem_append_right l List.mem_cons_self)) (fun b hb => hlive b (List.mem_append_left _ hb)) hbk
  have hnot : ¬ ((bk.expandMult + 1) * hashBktCapacityThresh ≤ bk.count + 1 ∧ t.noexpand ≠ 1) := by
    rintro ⟨hfull, -⟩
    rw [hmult, hcount, hashBktCapacityThresh] at hfull
    omega
  dsimp only at haddto
  rw [if_neg hnot] at haddto
  have hcounted := ht.counted.append a
  let t₂ : UtTable := { t with
    tail := a, numItems := t.numItems + 1,
    buckets := t.buckets.set (s₁.bktOf t.numBuckets a) ⟨some a, bk.count + 1, bk.expandMult⟩ }
  have ht₂ : (s₂.setTable t₂).Tabled (l ++ [a]) t₂
      (Function.update chain (s₁.bktOf t.numBuckets a) (a :: chain (s₁.bktOf t.numBuckets a))) :=
    ⟨fun _ => rfl, fun h => absurd h hl, ⟨hcounted.pow_eq, hcounted.items_eq, hcounted.tail_eq⟩,
      hbuckets₂.congr (fun _ _ => rfl) (fun _ _ => rfl) fun _ _ => rfl⟩
  refine ⟨s₂.setTable t₂, t₂, _, ?_, h.append ha happ hself hother hinfo hhead hprev hnext ht₂, ht₂, ?_, ?_⟩
  · rw [hadd]
    exact congrArg (Option.bind · _) haddto
  · intro b hb
    rcases List.mem_or_eq_of_mem_set hb with hb | rfl
    · exact hfew.mult_eq b hb
    · exact hmult
  · intro j hj
    have hold : s₁.lastFirst t.numBuckets l = s.lastFirst t.numBuckets l :=
      lastFirst_congr (fun b hb => hother b (hne b hb)) _
    have hnew : (s₂.setTable t₂).lastFirst t.numBuckets (l ++ [a]) = s₁.lastFirst t.numBuckets (l ++ [a]) :=
      lastFirst_congr (fun b _ => congrFun hinfo b) _
    show _ = (s₂.setTable t₂).lastFirst t.numBuckets (l ++ [a]) j
    rw [hnew, lastFirst_append, hold]
    by_cases hja : j = s₁.bktOf t.numBuckets a
    · rw [hja, Function.update_self, Function.update_self, hfew.chain_eq hlt]
    · rw [Function.update_of_ne hja, Function.update_of_ne hja]
      exact hfew.chain_eq hj

theorem lastFirst_erase {pre post : List Addr} (hnodup : (pre ++ a :: post).Nodup) (n j : Nat) :
    (s.lastFirst n (pre ++ a :: post) j).erase a = s.lastFirst n (pre ++ post) j := by
  have hnot : a ∉ pre := fun hmem => ((mem_without hnodup).1 (List.mem_append_left post hmem)).2 rfl
  have hout : pre ++ post = (pre ++ a :: post).filter (· != a) := by
    rw [← hnodup.erase_eq_filter, List.erase_append_right _ hnot, List.erase_cons_head]
  have hchain : (s.lastFirst n (pre ++ a :: post) j).Nodup := List.nodup_reverse.2 (hnodup.filter _)
  rw [hchain.erase_eq_filter, hout, lastFirst, lastFirst, List.filter_reverse, List.filter_comm]

/-- `HASH_DEL` leaves the order inside the chains. -/
theorem Holds.del_few (h : Holds hashFcn s l entries) (ht : s.Tabled l t chain) (hfew : s.Few l t chain)
    (ha : l[i]? = some a) :
    ∃ s' t' chain', s.hashDel a = some s' ∧ Holds hashFcn (s'.store a none) (l.eraseIdx i) (entries.eraseIdx i) ∧
      (s'.store a none).Tabled (l.eraseIdx i) t' chain' ∧ (s'.store a none).Few (l.eraseIdx i) t' chain' := by
  obtain ⟨hi, hai⟩ := List.getElem?_eq_some_iff.1 ha
  have hcut : l = l.take i ++ a :: l.drop (i + 1) := by
    rw [← hai, List.getElem_cons_drop, List.take_append_drop]
  have herase : l.eraseIdx i = l.take i ++ l.drop (i + 1) := List.eraseIdx_eq_take_drop_succ l i
  obtain ⟨s₁, hdel₁, hholds⟩ := h.delAt ha
  obtain ⟨s', t', chain', hdel, hinfo, -, ht', hkept⟩ :=
    hashDel_spec (hcut ▸ h.app) (fun b hb => (h.live_iff b).2 (hcut ▸ hb)) (hcut ▸ ht)
  obtain rfl : s₁ = s' := Option.some.inj (hdel₁.symm.trans hdel)
  rw [← herase] at ht' hkept
  by_cases hempty : l.eraseIdx i = []
  · rw [hempty] at hholds ht' ⊢
    exact ⟨s₁, _, _, hdel, hholds, tabled_nil 0, few_nil 0⟩
  · obtain ⟨hnum, hmult, hchain⟩ := hkept hempty
    have hne : ∀ b ∈ l.eraseIdx i, b ≠ a := fun b hb => by
      rw [herase] at hb
      exact ((mem_without (hcut ▸ h.app.nodup)).1 hb).2
    refine ⟨s₁, t', chain', hdel, hholds, ht', fun b hb => ?_, fun {j} hj => ?_⟩
    · obtain ⟨b', hb', heq⟩ := hmult b hb
      rw [heq, hfew.mult_eq b' hb']
    · have hsame : (s₁.store a none).lastFirst t.numBuckets (l.eraseIdx i) = s.lastFirst t.numBuckets (l.eraseIdx i) :=
        lastFirst_congr (fun b hb => (info_store_of_ne (hne b hb)).trans (congrFun hinfo b)) _
      rw [hnum] at hj ⊢
      rw [hchain j hj, hfew.chain_eq hj, hsame, herase, ← lastFirst_erase (hcut ▸ h.app.nodup), ← hcut]

/-- What is found is the last entry with the key. -/
theorem Holds.exists_foundLast (h : Holds hashFcn s l entries) (ht : s.Tabled l t chain) (hfew : s.Few l t chain)
    (key : CString) :
    ∃ r found, s.hashFindStr hashFcn key = some r ∧ Option.Rel (fun a i => l[i]? = some a) r found ∧
      FindsLast entries key found := by
  obtain ⟨r, found, hr, hfound, hfinds⟩ := h.exists_found key
  refine ⟨r, found, hr, hfound, hfinds, fun i hi j x hx => ?_⟩
  subst hi
  obtain ⟨a, rfl, ha⟩ : ∃ a, r = some a ∧ l[i]? = some a := by
    cases hfound with
    | some ha => exact ⟨_, rfl, ha⟩
  have hlt : hashToBkt (hashFcn key) t.numBuckets < t.numBuckets := by
    rw [ht.counted.pow_eq]
    exact hashToBkt_lt _ _
  -- The chain is searched from the last entry back.
  rw [hashFindStr_eq h ht, hfew.chain_eq hlt, firstWith, lastFirst, ← List.filter_reverse, List.find?_filter] at hr
  obtain ⟨-, as, bs, hrev, hbehind⟩ := List.find?_eq_some_iff_append.1 (Option.some.inj hr)
  have hcut : l = bs.reverse ++ a :: as.reverse := by
    have hl := congrArg List.reverse hrev
    simpa using hl
  obtain ⟨b, hb, hstored⟩ := exists_getElem?_right h.stored.flip hx
  have hib : i = bs.length := by
    refine (List.getElem?_inj (List.getElem?_eq_some_iff.1 ha).1 h.app.nodup).1 ?_
    rw [ha, hcut, List.getElem?_append_right (by simp)]
    simp
  by_contra hj
  have hmem : b ∈ as := by
    rw [hcut, List.getElem?_append_right (by simp; omega), List.length_reverse] at hb
    obtain ⟨k, hk⟩ : ∃ k, j - bs.length = k + 1 := ⟨j - bs.length - 1, by omega⟩
    rw [hk, List.getElem?_cons_succ] at hb
    exact List.mem_reverse.1 (List.mem_of_getElem? hb)
  have hnot := hbehind b hmem
  rw [bktOf_eq hstored, keyAt_eq hstored] at hnot
  simp at hnot

/-- The entries in memory, while every chain has the last one in front. -/
def RepresentsFew (hashFcn : CString → UInt32) (s : UtHash α) (entries : Table CString α) : Prop :=
  ∃ l t chain, Holds hashFcn s l entries ∧ s.Tabled l t chain ∧ s.Few l t chain

theorem FindsLast.lookup_eq (h : FindsLast entries key found) :
    (found.bind fun i => entries[i]?.map Prod.snd) = Table.lookup entries.reverse key := by
  obtain ⟨⟨hnone, hsome⟩, hlast⟩ := h
  cases found with
  | none =>
      refine (Table.lookup_eq_none_iff.2 fun hk => hnone.1 rfl ?_).symm
      rw [Table.keys, List.map_reverse, List.mem_reverse] at hk
      exact hk
  | some i =>
      obtain ⟨x, hx⟩ := hsome i rfl
      obtain ⟨hi, hxi⟩ := List.getElem?_eq_some_iff.1 hx
      have hcut : entries = entries.take i ++ (key, x) :: entries.drop (i + 1) := by
        rw [← hxi, List.getElem_cons_drop, List.take_append_drop]
      have hbehind : Table.lookup (entries.drop (i + 1)).reverse key = none := by
        refine Table.lookup_eq_none_iff.2 fun hk => ?_
        obtain ⟨e, he, rfl⟩ := List.mem_map.1 hk
        obtain ⟨j, hj⟩ := List.getElem?_of_mem (List.mem_reverse.1 he)
        rw [List.getElem?_drop] at hj
        have hle := hlast i rfl (i + 1 + j) e.2 hj
        omega
      have hreverse : entries.reverse = (entries.drop (i + 1)).reverse ++ (key, x) :: (entries.take i).reverse := by
        conv_lhs => rw [hcut]
        simp
      rw [Option.bind_some, hx, hreverse, Table.lookup_append, hbehind, Table.lookup_cons, if_pos rfl]
      rfl

/-- An entry is added where there are at most eight. -/
def StaysFew (_ : History (UtHash α) (Call α × Answer α)) (s : UtHash α) (e : Call α × Answer α) : Prop :=
  e.1.adds = true → s.htEntryCount < 9

theorem RepresentsFew.step {h : History (UtHash α) (Call α × Answer α)} {e : Call α × Answer α}
    (hrep : RepresentsFew hashFcn s entries) (hok : StaysFew h s e) (hstep : Step hashFcn s e s') :
    ∃ entries', TableStep FindsLast entries e entries' ∧ RepresentsFew hashFcn s' entries' := by
  obtain ⟨l, t, chain, hholds, ht, hfew⟩ := hrep
  obtain ⟨entry, hentry, hcall⟩ := hstep
  obtain ⟨c, out⟩ := e
  obtain ⟨r, found, hr, hfound, hfinds⟩ := hholds.exists_foundLast ht hfew c.key
  have hnot := not_mem_of_heap hholds hentry
  have hlen : c.adds = true → l.length < 9 := fun hadds => by
    have hcount := hok hadds
    rwa [hholds.htEntryCount_eq, ← hholds.stored.length_eq] at hcount
  have hadd : c.adds = true → ∀ key x, ∃ s', htAddEntry hashFcn s entry key x = some (0, s') ∧
      RepresentsFew hashFcn s' (entries.add key x) := by
    intro hadds key x
    obtain ⟨s', t', chain', hadd, h', ht', hfew'⟩ := hholds.add_few ht hfew (hlen hadds) hnot key x
    exact ⟨s', hadd, _, t', chain', h', ht', hfew'⟩
  have hdel : ∀ {a i}, l[i]? = some a → ∃ s', s.hashDel a = some s' ∧
      RepresentsFew hashFcn (s'.store a none) (entries.eraseIdx i) := by
    intro a i ha
    obtain ⟨s', t', chain', hdel, h', ht', hfew'⟩ := hholds.del_few ht hfew ha
    exact ⟨s', hdel, _, t', chain', h', ht', hfew'⟩
  obtain ⟨s₁, hcall₁, hrep₁⟩ := hholds.call_eq ⟨l, t, chain, hholds, ht, hfew⟩ hadd hdel hr hfound
  obtain ⟨hanswer, rfl⟩ := Prod.mk.inj (Option.some.inj (hcall₁.symm.trans hcall))
  exact ⟨_, ⟨found, hfinds, Prod.ext hanswer rfl⟩, hrep₁⟩

/-- A table that never holds ten entries finds the last one added under a key, and removes it first. -/
theorem run_as_lastFound {h : History (UtHash α) (Call α × Answer α)} (hrun : Run (Step hashFcn) htCreate h s)
    (hok : StepsMeet StaysFew h) :
    ∃ h' entries, Run (TableStep FindsLast) [] h' entries ∧ h'.map Prod.snd = h.map Prod.snd := by
  obtain ⟨h', entries, hrun', -, hevents⟩ :=
    @Run.simulated_of_stepsMeet _ _ (Step hashFcn) _ _ _ StaysFew _ (TableStep FindsLast) _ (RepresentsFew hashFcn)
      ⟨[], _, _, holds_create, tabled_nil 0, few_nil 0⟩ RepresentsFew.step hrun hok
  exact ⟨h', entries, hrun', hevents⟩

theorem run_as_lastFound_same_key : ∃ (h : History (UtHash Nat) (Call Nat × Answer Nat)) (s : UtHash Nat),
    Run (Step HashJen.hash) htCreate h s ∧
      h.map Prod.snd = [(.getEntry ['p'], .data (some 1)), (.removeEntry ['p'], .code 0), (.addEntry ['p'] 2, .code 0),
        (.addEntry ['p'] 1, .code 0)] ∧
      ∃ h' entries, Run (TableStep FindsLast) [] h' entries ∧ h'.map Prod.snd = h.map Prod.snd := by
  have hrun₁ : Run (Step HashJen.hash) (htCreate : UtHash Nat) [] htCreate := .start
  have hrun₂ := hrun₁.next (e := (.addEntry ['p'] 1, .code 0)) ⟨0, rfl, rfl⟩
  have hrun₃ := hrun₂.next (e := (.addEntry ['p'] 2, .code 0)) ⟨1, rfl, rfl⟩
  have hrun₄ := hrun₃.next (e := (.removeEntry ['p'], .code 0)) ⟨2, rfl, rfl⟩
  have hrun₅ := hrun₄.next (e := (.getEntry ['p'], .data (some 1))) ⟨2, rfl, rfl⟩
  refine ⟨_, _, hrun₅, rfl, run_as_lastFound hrun₅ ⟨?_, ?_, ?_, ?_, trivial⟩⟩ <;>
    · intro _
      decide

end UtHash
end CUtil
end Raiezau
