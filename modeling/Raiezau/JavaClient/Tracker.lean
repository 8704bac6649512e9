import Raiezau.JavaClient.File

/-!
# Tracker — the declarations the Java client sends to its tracker
-/

namespace Raiezau
namespace JavaClient

open CUtil

def File.announceSeed (f : File) : CString :=
  f.name ++ ' ' :: (integerToString f.length ++ ' ' :: (integerToString f.pieceSize ++ ' ' :: f.key))

def listenString (port : Int) : CString := "listen ".toList ++ integerToString port

def leechString (files : List File) : CString :=
  let leech := files.foldl (fun leech f => if !f.seeded then leech ++ (f.key ++ [' ']) else leech) []
  "leech [".toList ++ leech ++ "]".toList

def seedString (files : List File) : CString :=
  let seed := files.foldl (fun seed f => if f.seeded then seed ++ (f.announceSeed ++ [' ']) else seed) []
  "seed [".toList ++ seed ++ "]".toList

/-- `sendDeclare`. -/
def sendDeclare (announcement : CString) (files : List File) : CString :=
  announcement ++ ' ' :: (seedString files ++ ' ' :: (leechString files ++ ['\n']))

/-- The line `doAnnounce` sends. -/
def doAnnounce (files : List File) (port : Int) : CString :=
  sendDeclare ("announce ".toList ++ listenString port) files

/-- The line `doUpdate` sends. -/
def doUpdate (files : List File) : CString := sendDeclare "update".toList files

/-! ## The two lists -/

def seededFiles (files : List File) : List File := files.filter File.seeded

def leechedFiles (files : List File) : List File := files.filter fun f => !f.seeded

/-- The four tokens of a seeded file. -/
def File.tokens (f : File) : List CString :=
  [f.name, integerToString f.length, integerToString f.pieceSize, f.key]

/-- A loop that appends a text for some of the elements. -/
theorem foldl_append_if {α : Type} (p : α → Bool) (g : α → CString) (l : List α) (s : CString) :
    l.foldl (fun s x => if p x then s ++ g x else s) s = s ++ (l.filter p).flatMap g := by
  induction l generalizing s with
  | nil => simp
  | cons x l ih =>
      cases hp : p x <;> simp [hp, ih]

theorem leechString_eq (files : List File) : leechString files = "leech [".toList ++
    ((leechedFiles files).map File.key).flatMap (fun w => w ++ [' ']) ++ "]".toList := by
  have hloop := foldl_append_if (fun f : File => !f.seeded) (fun f => f.key ++ [' ']) files []
  unfold leechString leechedFiles
  rw [hloop, List.nil_append, List.flatMap_map]

theorem seedString_eq (files : List File) : seedString files = "seed [".toList ++
    ((seededFiles files).flatMap File.tokens).flatMap (fun w => w ++ [' ']) ++ "]".toList := by
  have hentry : ∀ f : File, f.announceSeed ++ [' '] = f.tokens.flatMap fun w => w ++ [' '] := by
    intro f
    simp [File.announceSeed, File.tokens]
  have hloop := foldl_append_if File.seeded (fun f => f.announceSeed ++ [' ']) files []
  unfold seedString seededFiles
  rw [hloop, List.nil_append, List.flatMap_assoc]
  simp only [hentry]

end JavaClient
end Raiezau
