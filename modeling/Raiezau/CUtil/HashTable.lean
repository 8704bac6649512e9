import Raiezau.Assoc.Table
import Raiezau.CUtil.CString

/-!
# HashTable — the string-keyed tables of `cutil/hash_table.c`

The tables wrap `uthash`, whose iteration visits the items in the order they were added.  Lookup goes
through the buckets; every table of the tracker keeps its keys distinct, so the order inside a bucket
never decides a lookup and an association list in insertion order is a faithful model.
-/

namespace Raiezau
namespace CUtil

open Assoc

abbrev HashTable (α : Type) := Table CString α

variable {α : Type}

def htCreate : HashTable α := []

/-- `ht_add_entry`: adds without looking at the keys present. -/
def htAddEntry (h : HashTable α) (key : CString) (data : α) : HashTable α := h.add key data

/-- `ht_add_unique_entry`: does nothing when the key is present. -/
def htAddUniqueEntry (h : HashTable α) (key : CString) (data : α) : HashTable α :=
  h.insertNew key data

/-- `ht_remove_entry`: removes whatever is stored under the key. -/
def htRemoveEntry (h : HashTable α) (key : CString) : HashTable α := h.erase key

def htGetEntry (h : HashTable α) (key : CString) : Option α := h.lookup key

/-- `ht_to_list`: `list_add` puts each visited item in front. -/
def htToList (h : HashTable α) : List α := h.values.foldl (fun l x => x :: l) []

theorem htToList_eq_reverse (h : HashTable α) : htToList h = h.values.reverse := by
  simp [htToList]

theorem mem_htToList_iff {h : HashTable α} {x : α} : x ∈ htToList h ↔ ∃ k, (k, x) ∈ h := by
  simp [htToList_eq_reverse, Table.values]

end CUtil
end Raiezau
