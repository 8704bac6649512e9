import Mathlib.Data.List.Basic
import Mathlib.Data.List.Nodup

/-!
# Table — association lists in insertion order

Entries are kept in the order they were added, which is the order iteration visits them in.  `add` does
not look at the keys already present; `insertNew` only adds a key that is absent, and a table that is
built with it alone has pairwise distinct keys (`UniqueKeys`).  On such tables lookup and membership
are the same thing.
-/

namespace Raiezau
namespace Assoc

universe u v

abbrev Table (κ : Type u) (α : Type v) := List (κ × α)

namespace Table

variable {κ : Type u} {α : Type v} [DecidableEq κ]

def keys (t : Table κ α) : List κ := t.map Prod.fst

def values (t : Table κ α) : List α := t.map Prod.snd

def lookup (t : Table κ α) (k : κ) : Option α := (t.find? (fun e => e.1 = k)).map Prod.snd

def add (t : Table κ α) (k : κ) (x : α) : Table κ α := t ++ [(k, x)]

def insertNew (t : Table κ α) (k : κ) (x : α) : Table κ α :=
  if (t.lookup k).isSome then t else t.add k x

/-- Remove the entry stored under a key, whatever it holds. -/
def erase (t : Table κ α) (k : κ) : Table κ α := t.eraseP (fun e => e.1 = k)

/-- Overwrite the value stored under a key. -/
def update (t : Table κ α) (k : κ) (f : α → α) : Table κ α :=
  t.map (fun e => if e.1 = k then (e.1, f e.2) else e)

/-- Store a value under a key, over the one that is there. -/
def put (t : Table κ α) (k : κ) (x : α) : Table κ α :=
  if (t.lookup k).isSome then t.update k fun _ => x else t.add k x

def UniqueKeys (t : Table κ α) : Prop := t.keys.Nodup

/-! ## Lookup -/

@[simp] theorem lookup_nil (k : κ) : lookup ([] : Table κ α) k = none := rfl

theorem lookup_cons (e : κ × α) (t : Table κ α) (k : κ) :
    lookup (e :: t) k = if e.1 = k then some e.2 else lookup t k := by
  by_cases h : e.1 = k <;> simp [lookup, h]

theorem lookup_eq_none_iff {t : Table κ α} {k : κ} : t.lookup k = none ↔ k ∉ t.keys := by
  induction t with
  | nil => simp [keys]
  | cons e t ih =>
      by_cases h : e.1 = k
      · simp [lookup_cons, keys, h]
      · have hk : ¬ k = e.1 := fun hk => h hk.symm
        simpa [lookup_cons, keys, h, hk] using ih

theorem mem_of_lookup {t : Table κ α} {k : κ} {x : α} (h : t.lookup k = some x) : (k, x) ∈ t := by
  induction t with
  | nil => simp at h
  | cons e t ih =>
      by_cases hk : e.1 = k
      · simp only [lookup_cons, hk, if_true, Option.some.injEq] at h
        simp [← hk, ← h]
      · simp only [lookup_cons, hk, if_false] at h
        exact List.mem_cons_of_mem _ (ih h)

omit [DecidableEq κ] in
theorem mem_keys_of_mem {t : Table κ α} {k : κ} {x : α} (h : (k, x) ∈ t) : k ∈ t.keys :=
  List.mem_map.2 ⟨(k, x), h, rfl⟩

theorem lookup_of_mem {t : Table κ α} (hu : t.UniqueKeys) {k : κ} {x : α} (h : (k, x) ∈ t) :
    t.lookup k = some x := by
  induction t with
  | nil => simp at h
  | cons e t ih =>
      have hnd : e.1 ∉ keys t ∧ (keys t).Nodup := by simpa [UniqueKeys, keys] using hu
      rcases List.mem_cons.1 h with rfl | h
      · simp [lookup_cons]
      · have hne : e.1 ≠ k := fun hk => hnd.1 (hk ▸ mem_keys_of_mem h)
        simpa [lookup_cons, hne] using ih hnd.2 h

theorem lookup_eq_some_iff {t : Table κ α} (hu : t.UniqueKeys) {k : κ} {x : α} :
    t.lookup k = some x ↔ (k, x) ∈ t :=
  ⟨mem_of_lookup, lookup_of_mem hu⟩

theorem lookup_add (t : Table κ α) (k k' : κ) (x : α) :
    (t.add k x).lookup k' = (t.lookup k').or (if k = k' then some x else none) := by
  induction t with
  | nil => by_cases h : k = k' <;> simp [add, lookup_cons, h]
  | cons e t ih =>
      by_cases h : e.1 = k'
      · simp [add, lookup_cons, h]
      · simpa [add, lookup_cons, h] using ih

theorem lookup_append (t t' : Table κ α) (k : κ) : lookup (t ++ t') k = (lookup t k).or (lookup t' k) := by
  induction t with
  | nil => rfl
  | cons e t ih =>
      rw [List.cons_append, lookup_cons, lookup_cons, ih]
      split <;> rfl

/-! ## Insertion -/

theorem insertNew_of_lookup {t : Table κ α} {k : κ} {x y : α} (h : t.lookup k = some y) :
    t.insertNew k x = t := by
  simp [insertNew, h]

theorem insertNew_of_none {t : Table κ α} {k : κ} {x : α} (h : t.lookup k = none) :
    t.insertNew k x = t ++ [(k, x)] := by
  simp [insertNew, h, add]

theorem mem_insertNew_of_mem {t : Table κ α} {k : κ} {x : α} {e : κ × α} (h : e ∈ t) :
    e ∈ t.insertNew k x := by
  unfold insertNew
  split
  · exact h
  · exact List.mem_append_left _ h

/-- What insertion adds is the new entry, and only under a key that was absent. -/
theorem mem_insertNew_iff {t : Table κ α} {k : κ} {x : α} {e : κ × α} :
    e ∈ t.insertNew k x ↔ e ∈ t ∨ (e = (k, x) ∧ t.lookup k = none) := by
  cases h : t.lookup k with
  | none => simp [insertNew_of_none h]
  | some y => simp [insertNew_of_lookup h]

theorem UniqueKeys.add {t : Table κ α} (hu : t.UniqueKeys) {k : κ} (hk : t.lookup k = none) (x : α) :
    (t.add k x).UniqueKeys := by
  have hk' : k ∉ t.keys := lookup_eq_none_iff.1 hk
  simp only [UniqueKeys, keys, Table.add, List.map_append, List.map_cons, List.map_nil]
  refine List.nodup_append.2 ⟨hu, by simp, ?_⟩
  intro a ha b hb
  rcases List.mem_singleton.1 hb with rfl
  intro hab
  exact hk' (hab ▸ ha)

theorem UniqueKeys.insertNew {t : Table κ α} (hu : t.UniqueKeys) (k : κ) (x : α) :
    (t.insertNew k x).UniqueKeys := by
  cases h : t.lookup k with
  | none =>
      have := hu.add h x
      rwa [Table.add, ← insertNew_of_none h] at this
  | some y => rwa [insertNew_of_lookup h]

/-- An entry that is inserted is found last, where the key was absent. -/
theorem lookup_reverse_foldl_insertNew (t t' : Table κ α) (k : κ) :
    lookup (t'.foldl (fun t e => t.insertNew e.1 e.2) t).reverse k = (lookup t.reverse k).or (t'.lookup k) := by
  induction t' generalizing t with
  | nil => rw [List.foldl_nil, lookup_nil, Option.or_none]
  | cons e t' ih =>
      have hnone : ∀ k, lookup t.reverse k = none ↔ t.lookup k = none := by
        intro k
        rw [lookup_eq_none_iff, lookup_eq_none_iff, keys, keys, List.map_reverse, List.mem_reverse]
      rw [List.foldl_cons, ih, lookup_cons]
      cases hold : t.lookup e.1 with
      | some y =>
          rw [insertNew_of_lookup hold]
          split
          · rename_i hk
            obtain ⟨z, hz⟩ := Option.ne_none_iff_exists'.1 fun h => absurd ((hnone e.1).1 h) (by rw [hold]; exact Option.some_ne_none y)
            rw [← hk, hz, Option.some_or, Option.some_or]
          · rfl
      | none =>
          rw [insertNew_of_none hold, List.reverse_append, lookup_append]
          show ((lookup [(e.1, e.2)] k).or _).or _ = _
          rw [lookup_cons, lookup_nil]
          split
          · rename_i hk
            rw [← hk, (hnone e.1).2 hold]
            rfl
          · rfl

theorem length_foldl_insertNew_le (t t' : Table κ α) :
    (t'.foldl (fun t e => t.insertNew e.1 e.2) t).length ≤ t.length + t'.length := by
  induction t' generalizing t with
  | nil => exact Nat.le_refl _
  | cons e t' ih =>
      have hone : (t.insertNew e.1 e.2).length ≤ t.length + 1 := by
        unfold insertNew
        split
        · exact Nat.le_succ _
        · exact Nat.le_of_eq List.length_append
      rw [List.foldl_cons, List.length_cons]
      have hrest := ih (t.insertNew e.1 e.2)
      omega

/-- Inserting the items of a list adds one entry for each distinct item whose key was absent. -/
theorem foldl_insertNew {ι : Type*} {k : ι → κ} (hinj : Function.Injective k) (v : ι → α) (l : List ι)
    (t : Table κ α) : ∃ new : List ι, new.Nodup ∧ (∀ x, x ∈ new ↔ x ∈ l ∧ t.lookup (k x) = none) ∧
      l.foldl (fun t x => t.insertNew (k x) (v x)) t = t ++ new.map fun x => (k x, v x) := by
  induction l generalizing t with
  | nil => exact ⟨[], List.nodup_nil, by simp, by simp⟩
  | cons x l ih =>
      cases hx : t.lookup (k x) with
      | some y =>
          obtain ⟨new, hnodup, hmem, hfold⟩ := ih t
          refine ⟨new, hnodup, fun e => ?_, ?_⟩
          · rw [hmem, List.mem_cons]
            refine ⟨fun h => ⟨.inr h.1, h.2⟩, ?_⟩
            rintro ⟨rfl | he, hnone⟩
            · rw [hx] at hnone
              cases hnone
            · exact ⟨he, hnone⟩
          · rw [List.foldl_cons, insertNew_of_lookup hx, hfold]
      | none =>
          obtain ⟨new, hnodup, hmem, hfold⟩ := ih (t ++ [(k x, v x)])
          have hlook : ∀ e, lookup (t ++ [(k x, v x)]) (k e) = none ↔ t.lookup (k e) = none ∧ x ≠ e := by
            intro e
            have hadd := lookup_add t (k x) (k e) (v x)
            rw [add] at hadd
            rw [hadd, Option.or_eq_none_iff]
            refine and_congr_right fun _ => ?_
            by_cases he : x = e
            · simp [he]
            · simp [he, hinj.ne he]
          refine ⟨x :: new, List.nodup_cons.2 ⟨?_, hnodup⟩, fun e => ?_, ?_⟩
          · rw [hmem, hlook]
            exact fun h => h.2.2 rfl
          · rw [List.mem_cons, List.mem_cons, hmem, hlook]
            by_cases he : e = x
            · subst he
              simp [hx]
            · simp [he, Ne.symm he]
          · rw [List.foldl_cons, insertNew_of_none hx, hfold]
            simp

/-! ## Removal -/

theorem mem_of_mem_erase {t : Table κ α} {k : κ} {e : κ × α} (h : e ∈ t.erase k) : e ∈ t :=
  List.mem_of_mem_eraseP h

theorem mem_erase_of_ne {t : Table κ α} {k : κ} {e : κ × α} (hne : e.1 ≠ k) :
    e ∈ t.erase k ↔ e ∈ t := by
  unfold erase
  exact List.mem_eraseP_of_neg (by simpa using hne)

theorem UniqueKeys.erase {t : Table κ α} (hu : t.UniqueKeys) (k : κ) : (t.erase k).UniqueKeys :=
  List.Nodup.sublist (List.Sublist.map _ List.eraseP_sublist) hu

theorem lookup_erase_self {t : Table κ α} (hu : t.UniqueKeys) (k : κ) :
    (t.erase k).lookup k = none := by
  induction t with
  | nil => rfl
  | cons e t ih =>
      have hnd : e.1 ∉ keys t ∧ (keys t).Nodup := by simpa [UniqueKeys, keys] using hu
      by_cases h : e.1 = k
      · rw [erase, List.eraseP_cons_of_pos (by simpa using h), lookup_eq_none_iff]
        exact h ▸ hnd.1
      · rw [erase, List.eraseP_cons_of_neg (by simpa using h), lookup_cons, if_neg h]
        exact ih hnd.2

theorem mem_erase_iff {t : Table κ α} (hu : t.UniqueKeys) {k : κ} {e : κ × α} :
    e ∈ t.erase k ↔ e ∈ t ∧ e.1 ≠ k := by
  constructor
  · intro h
    refine ⟨mem_of_mem_erase h, ?_⟩
    rintro rfl
    have := lookup_erase_self hu e.1
    rw [lookup_of_mem (hu.erase e.1) (x := e.2) h] at this
    cases this
  · rintro ⟨h, hne⟩
    exact (mem_erase_of_ne hne).2 h

theorem length_erase {t : Table κ α} {k : κ} {x : α} (h : (k, x) ∈ t) : (t.erase k).length + 1 = t.length := by
  rw [erase, List.length_eraseP_of_mem h (by simp), Nat.sub_add_cancel (List.length_pos_of_mem h)]

/-! ## Update -/

@[simp] theorem keys_update (t : Table κ α) (k : κ) (f : α → α) : (t.update k f).keys = t.keys := by
  simp only [keys, update, List.map_map]
  refine List.map_congr_left ?_
  intro e _
  by_cases h : e.1 = k <;> simp [h]

theorem lookup_update (t : Table κ α) (k k' : κ) (f : α → α) :
    (t.update k f).lookup k' = if k' = k then (t.lookup k').map f else t.lookup k' := by
  induction t with
  | nil => simp [update]
  | cons e t ih =>
      have hcons : update (e :: t) k f =
          (if e.1 = k then (e.1, f e.2) else e) :: update t k f := rfl
      rw [hcons, lookup_cons, lookup_cons, ih]
      by_cases h : e.1 = k
      · by_cases hk : e.1 = k'
        · simp [h, ← hk]
        · simp [h, show ¬ k = k' from fun he => hk (h.trans he)]
      · by_cases hk : e.1 = k'
        · simp [hk, show ¬ k' = k from fun he => h (hk.trans he)]
        · simp [h, hk]

theorem lookup_put (t : Table κ α) (k k' : κ) (x : α) :
    (t.put k x).lookup k' = if k' = k then some x else t.lookup k' := by
  unfold put
  cases hold : t.lookup k with
  | none =>
      rw [if_neg (by simp), lookup_add]
      by_cases hk : k' = k
      · rw [if_pos hk, if_pos hk.symm, hk, hold, Option.none_or]
      · rw [if_neg hk, if_neg (Ne.symm hk), Option.or_none]
  | some y =>
      rw [if_pos Option.isSome_some, lookup_update]
      by_cases hk : k' = k
      · rw [if_pos hk, if_pos hk, hk, hold, Option.map_some]
      · rw [if_neg hk, if_neg hk]

end Table

end Assoc
end Raiezau
