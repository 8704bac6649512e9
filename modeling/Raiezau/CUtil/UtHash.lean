import Raiezau.CUtil.HashTable
import Raiezau.Memory.Heap

/-!
# UtHash — the tables of `cutil/uthash.h` under `cutil/hash_table.c`

An entry is linked twice: into the list of all entries in the order they were added, and into the chain of its
bucket.  A chain grows at its front; when one gets long the buckets are doubled and every entry moves to its new
bucket.  The operations of `hash_table.c` are written here over the entries in memory, where `HashTable` has a
list of the keys and values.

The counters are natural numbers here and `unsigned` there: a table has fewer than `2 ^ 32` entries.  The lock, the
signature, the offset of the handle (`hho`) and the pointer of each handle to the table are left out, and so are
the Bloom filter and the other hash functions, which are not compiled in.
-/

namespace Raiezau
namespace CUtil

open Memory

/-! ## The hash function -/

namespace HashJen

/-- The three words that `HASH_JEN` mixes: `_hj_i`, `_hj_j` and `hashv`. -/
structure Words where
  i : UInt32
  j : UInt32
  hashv : UInt32
  deriving DecidableEq

/-- `HASH_JEN_MIX`. -/
def mix (w : Words) : Words :=
  let (a, b, c) := (w.i, w.j, w.hashv)
  let a := (a - b - c) ^^^ (c >>> 13)
  let b := (b - c - a) ^^^ (a <<< 8)
  let c := (c - a - b) ^^^ (b >>> 13)
  let a := (a - b - c) ^^^ (c >>> 12)
  let b := (b - c - a) ^^^ (a <<< 16)
  let c := (c - a - b) ^^^ (b >>> 5)
  let a := (a - b - c) ^^^ (c >>> 3)
  let b := (b - c - a) ^^^ (a <<< 10)
  let c := (c - a - b) ^^^ (b >>> 15)
  ⟨a, b, c⟩

/-- A byte of the key, shifted into a word. -/
def byte (key : CString) (n : Nat) (shift : UInt32) : UInt32 := UInt32.ofNat ((key.getD n '\x00').toNat % 256) <<< shift

def word (key : CString) (n : Nat) : UInt32 :=
  byte key n 0 + byte key (n + 1) 8 + byte key (n + 2) 16 + byte key (n + 3) 24

/-- The loop over blocks of twelve bytes, and what is left of the key behind it. -/
def blocks : Nat → Words → CString → Words × CString
  | 0, w, key => (w, key)
  | fuel + 1, w, key =>
      if 12 ≤ key.length then
        blocks fuel (mix ⟨w.i + word key 0, w.j + word key 4, w.hashv + word key 8⟩) (key.drop 12)
      else (w, key)

/-- The `switch` over the bytes left, which falls through: a byte that is not there adds nothing.  The lowest
byte of `hashv` is reserved for the length. -/
def tail (w : Words) (key : CString) : Words :=
  let part (n : Nat) (shift : UInt32) : UInt32 := if n < key.length then byte key n shift else 0
  { i := w.i + part 3 24 + part 2 16 + part 1 8 + part 0 0
    j := w.j + part 7 24 + part 6 16 + part 5 8 + part 4 0
    hashv := w.hashv + part 10 24 + part 9 16 + part 8 8 }

/-- `HASH_JEN`. -/
def hash (key : CString) : UInt32 :=
  let (w, rest) := blocks (key.length / 12 + 1) ⟨0x9e3779b9, 0x9e3779b9, 0xfeedbeef⟩ key
  (mix (tail { w with hashv := w.hashv + UInt32.ofNat key.length } rest)).hashv

end HashJen

/-! ## Entries and buckets -/

/-- The pointers of a handle: in the order of adding, and in the chain of the bucket. -/
inductive Link
  | prev
  | next
  | hhPrev
  | hhNext
  deriving DecidableEq

/-- `struct ht_entry` with its handle. -/
structure HtEntry (α : Type) where
  key : CString
  data : α
  keylen : Nat
  hashv : UInt32
  link : Link → Option Addr

structure UtBucket where
  hhHead : Option Addr
  count : Nat
  expandMult : Nat
  deriving DecidableEq

/-- `UT_hash_table`. -/
structure UtTable where
  buckets : List UtBucket
  numBuckets : Nat
  log2NumBuckets : Nat
  numItems : Nat
  tail : Addr
  idealChainMaxlen : Nat
  nonidealItems : Nat
  ineffExpands : Nat
  noexpand : Nat
  deriving DecidableEq

/-- The table, and the memory its entries are in. -/
structure UtHash (α : Type) where
  heap : Addr → Option (HtEntry α)
  head : Option Addr
  tbl : Option UtTable

def hashInitialNumBuckets : Nat := 32
def hashInitialNumBucketsLog2 : Nat := 5
def hashBktCapacityThresh : Nat := 10

namespace UtHash

variable {α : Type}

def store (s : UtHash α) (a : Addr) (entry : Option (HtEntry α)) : UtHash α :=
  { s with heap := Function.update s.heap a entry }

/-- A pointer of an entry is set. -/
def setLink (s : UtHash α) (a : Addr) (f : Link) (ptr : Option Addr) : Option (UtHash α) :=
  (s.heap a).map fun e => s.store a (some { e with link := Function.update e.link f ptr })

/-- A pointer of the entry that another pointer leads to, if it does. -/
def setLinkAt (s : UtHash α) (target : Option Addr) (f : Link) (ptr : Option Addr) : Option (UtHash α) :=
  match target with
  | none => some s
  | some a => s.setLink a f ptr

def setTable (s : UtHash α) (t : UtTable) : UtHash α := { s with tbl := some t }

/-- `HASH_TO_BKT`. -/
def hashToBkt (hashv : UInt32) (numBkts : Nat) : Nat := hashv.toNat &&& (numBkts - 1)

/-- `HASH_MAKE_TABLE`. -/
def hashMakeTable (head : Addr) : UtTable :=
  { buckets := List.replicate hashInitialNumBuckets ⟨none, 0, 0⟩
    numBuckets := hashInitialNumBuckets
    log2NumBuckets := hashInitialNumBucketsLog2
    numItems := 0
    tail := head
    idealChainMaxlen := 0
    nonidealItems := 0
    ineffExpands := 0
    noexpand := 0 }

/-! ## Expansion -/

/-- What `HASH_EXPAND_BUCKETS` builds: the new buckets, and how many entries are far from their start. -/
structure Expansion where
  newBuckets : List UtBucket
  nonidealItems : Nat

/-- An entry moves to the front of its new bucket.  The entry is `_he_thh`. -/
def moveEntry (ideal numBkts : Nat) (s : UtHash α) (x : Expansion) (thh : Addr) :
    Option (UtHash α × Expansion) := do
  let e ← s.heap thh
  let bkt := hashToBkt e.hashv numBkts
  let newbkt ← x.newBuckets[bkt]?
  let count := newbkt.count + 1
  if ideal = 0 ∧ ideal < count then none
  let mult := if ideal < count then count / ideal else newbkt.expandMult
  let nonideal := if ideal < count then x.nonidealItems + 1 else x.nonidealItems
  let s ← s.setLink thh .hhPrev none
  let s ← s.setLink thh .hhNext newbkt.hhHead
  let s ← s.setLinkAt newbkt.hhHead .hhPrev (some thh)
  some (s, ⟨x.newBuckets.set bkt ⟨some thh, count, mult⟩, nonideal⟩)

/-- The entries of one bucket move, from the entry `thh` on. -/
def moveChain (ideal numBkts : Nat) : Nat → UtHash α → Expansion → Option Addr → Option (UtHash α × Expansion)
  | _, s, x, none => some (s, x)
  | 0, _, _, some _ => none
  | fuel + 1, s, x, some thh => do
      let e ← s.heap thh
      let (s, x) ← moveEntry ideal numBkts s x thh
      moveChain ideal numBkts fuel s x (e.link .hhNext)

def moveBuckets (ideal numBkts fuel : Nat) : List UtBucket → UtHash α → Expansion → Option (UtHash α × Expansion)
  | [], s, x => some (s, x)
  | b :: bs, s, x => do
      let (s, x) ← moveChain ideal numBkts fuel s x b.hhHead
      moveBuckets ideal numBkts fuel bs s x

/-- `ceil(n / b)` for the doubled number of buckets `b`, a power of two. -/
def idealLength (t : UtTable) : Nat :=
  (t.numItems >>> (t.log2NumBuckets + 1)) + if t.numItems &&& (2 * t.numBuckets - 1) ≠ 0 then 1 else 0

/-- The table with its new buckets.  Two expansions in a row that left most entries far from the start of their
chains are the last ones. -/
def expanded (t : UtTable) (x : Expansion) : UtTable :=
  let ineff := if t.numItems >>> 1 < x.nonidealItems then t.ineffExpands + 1 else 0
  { t with
    buckets := x.newBuckets
    numBuckets := 2 * t.numBuckets
    log2NumBuckets := t.log2NumBuckets + 1
    idealChainMaxlen := idealLength t
    nonidealItems := x.nonidealItems
    ineffExpands := ineff
    noexpand := if 1 < ineff then 1 else t.noexpand }

/-- `HASH_EXPAND_BUCKETS`. -/
def hashExpandBuckets (s : UtHash α) (t : UtTable) : Option (UtHash α) := do
  let numBkts := 2 * t.numBuckets
  let (s, x) ←
    moveBuckets (idealLength t) numBkts t.numItems t.buckets s ⟨List.replicate numBkts ⟨none, 0, 0⟩, 0⟩
  some (s.setTable (expanded t x))

/-! ## Adding, finding, deleting -/

/-- `HASH_ADD_TO_BKT`. -/
def hashAddToBkt (s : UtHash α) (t : UtTable) (bkt : Nat) (addhh : Addr) : Option (UtHash α) := do
  let b ← t.buckets[bkt]?
  let count := b.count + 1
  let s ← s.setLink addhh .hhNext b.hhHead
  let s ← s.setLink addhh .hhPrev none
  let s ← s.setLinkAt b.hhHead .hhPrev (some addhh)
  let t := { t with buckets := t.buckets.set bkt ⟨some addhh, count, b.expandMult⟩ }
  if (b.expandMult + 1) * hashBktCapacityThresh ≤ count ∧ t.noexpand ≠ 1 then hashExpandBuckets s t
  else some (s.setTable t)

/-- The first part of `HASH_ADD_KEYPTR`: the entry is put behind the others. -/
def appendItem (s : UtHash α) (add : Addr) : Option (UtHash α × UtTable) := do
  let s ← s.setLink add .next none
  match s.head with
  | none => do
      let s ← s.setLink add .prev none
      some ({ s with head := some add }, hashMakeTable add)
  | some _ => do
      let t ← s.tbl
      let s ← s.setLink t.tail .next (some add)
      let s ← s.setLink add .prev (some t.tail)
      some (s, { t with tail := add })

/-- `HASH_ADD_STR`.  The entry has its key, the length of the key and its hash value. -/
def hashAddStr (s : UtHash α) (add : Addr) : Option (UtHash α) := do
  let (s, t) ← s.appendItem add
  let e ← s.heap add
  s.hashAddToBkt { t with numItems := t.numItems + 1 } (hashToBkt e.hashv t.numBuckets) add

/-- `HASH_FIND_IN_BKT`, from the entry `out` on. -/
def findInBkt (s : UtHash α) (key : CString) : Nat → Option Addr → Option (Option Addr)
  | _, none => some none
  | 0, some _ => none
  | fuel + 1, some out => do
      let e ← s.heap out
      -- `memcmp` over as many bytes as the two keys have.
      if e.keylen = key.length ∧ e.key.take key.length = key then some (some out)
      else findInBkt s key fuel (e.link .hhNext)

variable (hashFcn : CString → UInt32)

/-- `HASH_FIND_STR`. -/
def hashFindStr (s : UtHash α) (key : CString) : Option (Option Addr) :=
  match s.head with
  | none => some none
  | some _ => do
      let t ← s.tbl
      let b ← t.buckets[hashToBkt (hashFcn key) t.numBuckets]?
      findInBkt s key t.numItems b.hhHead

/-- `HASH_DEL_IN_BKT`. -/
def hashDelInBkt (s : UtHash α) (b : UtBucket) (del : Addr) (e : HtEntry α) : Option (UtHash α × UtBucket) := do
  let hhHead := if b.hhHead = some del then e.link .hhNext else b.hhHead
  let s ← s.setLinkAt (e.link .hhPrev) .hhNext (e.link .hhNext)
  let s ← s.setLinkAt (e.link .hhNext) .hhPrev (e.link .hhPrev)
  some (s, ⟨hhHead, b.count - 1, b.expandMult⟩)

/-- The part of `HASH_DELETE` that takes the entry out of the order of adding. -/
def unlinkItem (s : UtHash α) (e : HtEntry α) : Option (UtHash α) := do
  let s ←
    match e.link .prev with
    | some p => s.setLink p .next (e.link .next)
    | none => some { s with head := e.link .next }
  s.setLinkAt (e.link .next) .prev (e.link .prev)

/-- `HASH_DEL`. -/
def hashDel (s : UtHash α) (del : Addr) : Option (UtHash α) := do
  let e ← s.heap del
  let t ← s.tbl
  if e.link .prev = none ∧ e.link .next = none then some { s with head := none, tbl := none }
  else do
    let tail ← (if del = t.tail then e.link .prev else some t.tail)
    let s ← s.unlinkItem e
    let bkt := hashToBkt e.hashv t.numBuckets
    let b ← t.buckets[bkt]?
    let (s, b) ← s.hashDelInBkt b del e
    some (s.setTable { t with tail := tail, buckets := t.buckets.set bkt b, numItems := t.numItems - 1 })

/-! ## `hash_table.c` -/

def htCreate : UtHash α := ⟨fun _ => none, none, none⟩

/-- `HASH_COUNT`. -/
def htEntryCount (s : UtHash α) : Nat :=
  match s.head, s.tbl with
  | some _, some t => t.numItems
  | _, _ => 0

/-- The new entry, whose pointers are not set. -/
def newEntry (key : CString) (data : α) : HtEntry α := ⟨key, data, key.length, hashFcn key, fun _ => none⟩

/-- `ht_add_entry`.  The entry is at the address that `malloc` returned. -/
def htAddEntry (s : UtHash α) (entry : Addr) (key : CString) (data : α) : Option (Int × UtHash α) := do
  let s ← hashAddStr (s.store entry (some (newEntry hashFcn key data))) entry
  some (0, s)

def htAddUniqueEntry (s : UtHash α) (entry : Addr) (key : CString) (data : α) : Option (Int × UtHash α) := do
  match ← s.hashFindStr hashFcn key with
  | none => htAddEntry hashFcn s entry key data
  | some _ => some (-1, s)

def htRemoveEntry (s : UtHash α) (key : CString) : Option (Int × UtHash α) := do
  match ← s.hashFindStr hashFcn key with
  | none => some (-1, s)
  | some entry => do
      let s ← s.hashDel entry
      some (0, s.store entry none)

def htHasEntry (s : UtHash α) (key : CString) : Option Bool :=
  (s.hashFindStr hashFcn key).map Option.isSome

def htGetEntry (s : UtHash α) (key : CString) : Option (Option α) := do
  match ← s.hashFindStr hashFcn key with
  | none => some none
  | some entry => do
      let e ← s.heap entry
      some (some e.data)

/-- `HASH_ITER` from the entry `el` on, with a body that leaves the table alone. -/
def hashIter {σ : Type} (s : UtHash α) (body : σ → CString → α → σ) : Nat → Option Addr → σ → Option σ
  | _, none, args => some args
  | 0, some _, _ => none
  | fuel + 1, some el, args => do
      let e ← s.heap el
      hashIter s body fuel (e.link .next) (body args e.key e.data)

/-- `ht_for_each`. -/
def htForEach {σ : Type} (s : UtHash α) (body : σ → CString → α → σ) (args : σ) : Option σ :=
  hashIter s body s.htEntryCount s.head args

/-- The loop of `ht_free`: the entry behind is read before the body, which frees the entry. -/
def freeFrom : Nat → UtHash α → Option Addr → Option (UtHash α)
  | _, s, none => some s
  | 0, _, some _ => none
  | fuel + 1, s, some entry => do
      let e ← s.heap entry
      let s ← s.hashDel entry
      freeFrom fuel (s.store entry none) (e.link .next)

/-- `ht_free`, up to the memory of the table itself. -/
def htFree (s : UtHash α) : Option (UtHash α) := freeFrom s.htEntryCount s s.head

/-- `ht_to_list`: `list_add` puts each entry's data in front. -/
def htToList (s : UtHash α) : Option (List α) := s.htForEach (fun l _ x => x :: l) []

end UtHash

end CUtil
end Raiezau
