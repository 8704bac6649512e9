import Raiezau.CUtil.HashTable
import Raiezau.Memory.Heap

/-!
# State — files and clients of the C tracker

The objects of `tracker/file.c` and `tracker/client.c` and the functions that change them, over explicit
heaps: a `struct file *` or `struct client *` is an address.  Files are never freed; `client_free` frees
a client, and whatever still points at it dangles.

A function that dereferences a freed client, hands a null endpoint key to a table, or divides by a zero
piece size faults, and its model returns `none`.
-/

namespace Raiezau
namespace CTracker

open Memory CUtil

/-! ## Data -/

/-- The four bytes of an IPv4 address, in the order `inet_ntop` prints them. -/
structure InAddr where
  b0 : UInt8
  b1 : UInt8
  b2 : UInt8
  b3 : UInt8
  deriving DecidableEq, Repr

structure SockAddr where
  sinAddr : InAddr
  sinPort : UInt16
  deriving DecidableEq, Repr

def ipStringify (a : InAddr) : CString :=
  decimal a.b0.toNat ++ '.' :: (decimal a.b1.toNat ++ '.' :: (decimal a.b2.toNat ++
    '.' :: decimal a.b3.toNat))

def sockaddrStringify (si : SockAddr) : CString :=
  ipStringify si.sinAddr ++ ':' :: decimal si.sinPort.toNat

theorem dotted_ipStringify (a : InAddr) :
    ∀ ch ∈ ipStringify a, ch.isDigit = true ∨ ch = '.' := by
  intro ch hch
  simp only [ipStringify, List.mem_append, List.mem_cons] at hch
  rcases hch with h | h | h | h | h | h | h
  · exact .inl (isDigit_of_mem_decimal h)
  · exact .inr h
  · exact .inl (isDigit_of_mem_decimal h)
  · exact .inr h
  · exact .inl (isDigit_of_mem_decimal h)
  · exact .inr h
  · exact .inl (isDigit_of_mem_decimal h)

structure File where
  filename : CString
  md5Str : CString
  length : Nat
  pieceCount : Nat
  pieceSize : Nat
  clients : HashTable Addr
  deriving DecidableEq, Repr

structure Client where
  socket : Int
  addr : SockAddr
  connAddrKey : CString
  listeningPort : Nat
  listenAddrKey : Option CString
  filesSeed : List Addr
  filesLeech : List Addr
  deriving DecidableEq, Repr

/-- The files a client's two lists hold. -/
def Client.files (c : Client) : List Addr := c.filesSeed ++ c.filesLeech

structure Tracker where
  fileHeap : Heap File
  fileByHash : HashTable Addr
  fileByName : HashTable (List Addr)
  clientHeap : Heap Client
  clients : HashTable Addr
  deriving DecidableEq, Repr

def Tracker.init : Tracker :=
  { fileHeap := Heap.empty
    fileByHash := htCreate
    fileByName := htCreate
    clientHeap := Heap.empty
    clients := htCreate }

namespace Tracker

def file (st : Tracker) (f : Addr) : Option File := st.fileHeap.read f

def client (st : Tracker) (c : Addr) : Option Client := st.clientHeap.read c

def modifyFile (st : Tracker) (f : Addr) (g : File → File) : Tracker :=
  { st with fileHeap := st.fileHeap.modify f g }

def modifyClient (st : Tracker) (c : Addr) (g : Client → Client) : Tracker :=
  { st with clientHeap := st.clientHeap.modify c g }

end Tracker

/-! ## `file.c` -/

def fileRegister (st : Tracker) (f : Addr) (x : File) : Tracker :=
  { st with
    fileByHash := htAddEntry st.fileByHash x.md5Str f
    fileByName :=
      match htGetEntry st.fileByName x.filename with
      | none => htAddEntry st.fileByName x.filename [f]
      | some _ => st.fileByName.update x.filename (fun l => f :: l) }

/-- `length / piece_size` faults on a zero piece size. -/
def fileNew (st : Tracker) (filename : CString) (length pieceSize : Nat) (md5Str : CString) :
    Option (Tracker × Addr) :=
  if pieceSize = 0 then none
  else
    let f := st.fileHeap.fresh
    let x : File :=
      { filename := filename
        md5Str := md5Str
        length := length
        pieceCount := length / pieceSize + if length % pieceSize = 0 then 0 else 1
        pieceSize := pieceSize
        clients := htCreate }
    some (fileRegister { st with fileHeap := st.fileHeap.alloc x } f x, f)

def fileGetByKey (st : Tracker) (md5Key : CString) : Option Addr := htGetEntry st.fileByHash md5Key

/-- The size parameters are `uint32_t`; the callers hand them a `long` and an `int`. -/
def fileGetOrCreate (st : Tracker) (filename : CString) (length pieceSize : Int) (md5Str : CString) :
    Option (Tracker × Addr) :=
  match fileGetByKey st md5Str with
  | some f => some (st, f)
  | none => fileNew st filename (toUInt32 length) (toUInt32 pieceSize) md5Str

/-- `file_list`. -/
def fileList (st : Tracker) : List Addr := htToList st.fileByHash

/-- A null endpoint key faults: it would be copied into the new entry. -/
def fileAddClient (c : Addr) (st : Tracker) (f : Addr) : Option Tracker := do
  let cl ← st.client c
  let key ← cl.listenAddrKey
  let _ ← st.file f
  pure (st.modifyFile f fun x => { x with clients := htAddUniqueEntry x.clients key c })

/-- A null endpoint key is not looked at when the table is empty, and faults otherwise. -/
def fileRemoveClient (c : Addr) (st : Tracker) (f : Addr) : Option Tracker := do
  let cl ← st.client c
  let x ← st.file f
  match cl.listenAddrKey with
  | some key => pure (st.modifyFile f fun x => { x with clients := htRemoveEntry x.clients key })
  | none => if x.clients = [] then pure st else none

/-! ## `client.c` -/

def clientCreate (socket : Int) (addr : SockAddr) (connKey : CString) : Client :=
  { socket := socket
    addr := addr
    connAddrKey := connKey
    listeningPort := 0
    listenAddrKey := none
    filesSeed := []
    filesLeech := [] }

/-- The endpoint under which a client at an address is announced. -/
def listenKey (addr : SockAddr) (port : Nat) : CString :=
  ipStringify addr.sinAddr ++ ':' :: decimal port

def clientSetListeningPort (st : Tracker) (c : Addr) (port : Nat) : Tracker :=
  st.modifyClient c fun cl =>
    { cl with listeningPort := port, listenAddrKey := some (listenKey cl.addr port) }

def removeClientFromFileList (st : Tracker) (c : Addr) (files : List Addr) : Option Tracker :=
  files.foldlM (fileRemoveClient c) st

def clientFree (st : Tracker) (c : Addr) : Option Tracker := do
  let cl ← st.client c
  let st ← removeClientFromFileList st c cl.filesSeed
  let st ← removeClientFromFileList st c cl.filesLeech
  pure { st with clientHeap := st.clientHeap.free c }

def clientGetOrCreate (st : Tracker) (socket : Int) (addr : SockAddr) : Tracker × Addr :=
  let connKey := sockaddrStringify addr
  match htGetEntry st.clients connKey with
  | some c => (st, c)
  | none =>
      let c := st.clientHeap.fresh
      ({ st with
          clientHeap := st.clientHeap.alloc (clientCreate socket addr connKey)
          clients := htAddEntry st.clients connKey c }, c)

def deleteClient (st : Tracker) (c : Addr) : Option Tracker := do
  let cl ← st.client c
  clientFree { st with clients := htRemoveEntry st.clients cl.connAddrKey } c

end CTracker
end Raiezau
