import Raiezau.CUtil.HashTable
import Raiezau.CUtil.LinkedList
import Mathlib.Algebra.Order.Group.Nat

/-!
# Yaml — the tree builder of `cutil/yaml2.c`

`yaml2_parse_file` reads the events of `libyaml` and builds a tree, with a stack of the nodes that are open.
A node on the stack is the last child of the one below it.  The source links it there when it is pushed;
here it is put there when it is popped, since it changes until then.

A call that reaches `strdup(NULL)`, uses a freed key or fails an assertion has no result.
-/

namespace Raiezau
namespace CUtil

/-! ## Model -/

inductive YamlWrap
  | scalar (value : CString)
  | sequence (elements : List YamlWrap)
  | mapping (entries : List (CString × YamlWrap))
  deriving Repr

/-- An event; the value of a scalar may contain NUL. -/
inductive YamlEvent
  | streamStart
  | documentStart
  | sequenceStart
  | sequenceEnd
  | mappingStart
  | mappingEnd
  | scalar (value : List Char)
  | documentEnd
  | streamEnd
  deriving DecidableEq, Repr

/-- The variable `keyname`. -/
inductive KeyName
  | null
  | text (k : CString)
  | freed
  deriving DecidableEq, Repr

namespace KeyName

def toOption : KeyName → Option CString
  | .text k => some k
  | _ => none

/-- The variable after `free(keyname)`, where it is not set to `NULL`. -/
def released : KeyName → KeyName
  | .null => .null
  | _ => .freed

end KeyName

/-- A node on the stack, and the key that it is stored under in the mapping below. -/
structure Frame where
  node : YamlWrap
  key : Option CString
  deriving Repr

/-- What `parser_stack_push` does to the head of the stack. -/
def attach (head : YamlWrap) (key : Option CString) (node : YamlWrap) : YamlWrap :=
  match head, key with
  | .mapping entries, some k => .mapping (htAddEntry entries k node)
  | .sequence elements, _ => .sequence (listAppended elements node)
  | head, _ => head

/-- `stack_create(100)`. -/
def stackSize : Nat := 100

/-- `stack_push`.  What is not pushed stays as it is. -/
def stackPush (stack : List Frame) (frame : Frame) : List Frame :=
  match stack with
  | [] => [frame]
  | head :: below =>
      if stack.length < stackSize then frame :: stack
      else ⟨attach head.node frame.key frame.node, head.key⟩ :: below

def stackPop : List Frame → Option YamlWrap × List Frame
  | [] => (none, [])
  | [frame] => (some frame.node, [])
  | frame :: head :: below =>
      (some frame.node, ⟨attach head.node frame.key frame.node, head.key⟩ :: below)

def YamlWrap.isMapping : YamlWrap → Bool
  | .mapping _ => true
  | _ => false

def parserStackPush (stack : List Frame) (node : YamlWrap) (keyname : KeyName) : Option (List Frame) :=
  -- `ht_add_entry` copies the key, and the key is freed.
  if (stack.head?.any (fun head => head.node.isMapping) && keyname == .null) || keyname == .freed then none
  else some (stackPush stack ⟨node, keyname.toOption⟩)

structure ParserState where
  stack : List Frame
  key : Bool
  keyname : KeyName
  yamlw : Option YamlWrap
  deriving Repr

namespace ParserState

def init : ParserState := ⟨[], false, .null, none⟩

def scalarEvent (s : ParserState) (value : List Char) : Option ParserState :=
  match s.stack with
  | [] => do
      -- The whole document is a sole scalar.
      let stack ← parserStackPush s.stack (.scalar (asCString value)) .null
      some { s with stack := stack }
  | head :: _ =>
      match head.node with
      | .mapping _ =>
          if !s.key then some { s with keyname := .text (asCString value), key := true }
          else do
            let stack ← parserStackPush s.stack (.scalar (asCString value)) s.keyname
            some { s with stack := (stackPop stack).2, keyname := .null, key := false }
      | .sequence _ => do
          let stack ← parserStackPush s.stack (.scalar (asCString value)) s.keyname
          some { s with stack := (stackPop stack).2, keyname := s.keyname.released }
      | .scalar _ => none

/-- The `switch` on an event that does not end the loop. -/
def step (s : ParserState) : YamlEvent → Option ParserState
  | .sequenceStart => do
      let stack ← parserStackPush s.stack (.sequence []) s.keyname
      some { s with stack := stack, keyname := .null }
  | .mappingStart => do
      let stack ← parserStackPush s.stack (.mapping []) s.keyname
      some { s with stack := stack, keyname := .null, key := false }
  | .mappingEnd | .sequenceEnd =>
      some { s with stack := (stackPop s.stack).2, yamlw := (stackPop s.stack).1 }
  | .scalar value => s.scalarEvent value
  | _ => some s

end ParserState

/-- The loop: what is returned, and what is stored in `*yamlw`.  The parser fails where the events end. -/
def parseLoop : ParserState → List YamlEvent → Option (Int × Option YamlWrap)
  | s, [] => some (-1, s.yamlw)
  | s, .documentEnd :: _ => some (0, if s.stack.isEmpty then s.yamlw else (stackPop s.stack).1)
  | s, .streamEnd :: _ => some (0, s.yamlw)
  | s, event :: events => do
      let s ← s.step event
      parseLoop s events

def yaml2ParseFile (events : List YamlEvent) : Option (Int × Option YamlWrap) :=
  parseLoop .init events

/-! ## The events of a tree -/

namespace YamlWrap

mutual

def events : YamlWrap → List YamlEvent
  | .scalar value => [.scalar value]
  | .sequence xs => .sequenceStart :: (elementEvents xs ++ [.sequenceEnd])
  | .mapping es => .mappingStart :: (entryEvents es ++ [.mappingEnd])

def elementEvents : List YamlWrap → List YamlEvent
  | [] => []
  | x :: xs => events x ++ elementEvents xs

def entryEvents : List (CString × YamlWrap) → List YamlEvent
  | [] => []
  | (k, v) :: es => .scalar k :: (events v ++ entryEvents es)

end

/-- A stream with one document, which holds the tree. -/
def document (t : YamlWrap) : List YamlEvent :=
  [.streamStart, .documentStart] ++ t.events ++ [.documentEnd, .streamEnd]

/-! ## What decides whether a tree is built -/

mutual

/-- The nodes on the longest path from the root to a leaf. -/
def height : YamlWrap → Nat
  | .scalar _ => 1
  | .sequence xs => elementHeight xs + 1
  | .mapping es => entryHeight es + 1

def elementHeight : List YamlWrap → Nat
  | [] => 0
  | x :: xs => max (height x) (elementHeight xs)

def entryHeight : List (CString × YamlWrap) → Nat
  | [] => 0
  | (_, v) :: es => max (height v) (entryHeight es)

end

mutual

/-- The flag `key` after the element of a sequence, by what it was before. -/
def elementFlag : YamlWrap → Bool → Bool
  | .scalar _, b => b
  | .sequence xs, b => elementsFlag xs b
  | .mapping es, _ => entriesFlag es false

/-- The flag after the value of a mapping, which is set before it. -/
def valueFlag : YamlWrap → Bool
  | .scalar _ => false
  | .sequence xs => elementsFlag xs true
  | .mapping es => entriesFlag es false

def elementsFlag : List YamlWrap → Bool → Bool
  | [], b => b
  | x :: xs, b => elementsFlag xs (elementFlag x b)

def entriesFlag : List (CString × YamlWrap) → Bool → Bool
  | [], b => b
  | (_, v) :: es, _ => entriesFlag es (valueFlag v)

end

mutual

/-- The flag is cleared wherever a key comes: every value but the last of a mapping leaves it so. -/
def KeysRead : YamlWrap → Prop
  | .scalar _ => True
  | .sequence xs => ElementsRead xs
  | .mapping es => EntriesRead es false

def ElementsRead : List YamlWrap → Prop
  | [] => True
  | x :: xs => KeysRead x ∧ ElementsRead xs

def EntriesRead : List (CString × YamlWrap) → Bool → Prop
  | [], _ => True
  | (_, v) :: es, b => b = false ∧ KeysRead v ∧ EntriesRead es (valueFlag v)

end

mutual

/-- No text contains NUL. -/
def NoNul : YamlWrap → Prop
  | .scalar value => '\x00' ∉ value
  | .sequence xs => ElementsNoNul xs
  | .mapping es => EntriesNoNul es

def ElementsNoNul : List YamlWrap → Prop
  | [] => True
  | x :: xs => NoNul x ∧ ElementsNoNul xs

def EntriesNoNul : List (CString × YamlWrap) → Prop
  | [] => True
  | (k, v) :: es => '\x00' ∉ k ∧ NoNul v ∧ EntriesNoNul es

end

mutual

/-- The tree whose sequences are in the order that `list_append` leaves. -/
def listed : YamlWrap → YamlWrap
  | .scalar value => .scalar value
  | .sequence xs => .sequence ((listedElements xs).foldl listAppended [])
  | .mapping es => .mapping (listedEntries es)

def listedElements : List YamlWrap → List YamlWrap
  | [] => []
  | x :: xs => listed x :: listedElements xs

def listedEntries : List (CString × YamlWrap) → List (CString × YamlWrap)
  | [] => []
  | (k, v) :: es => (k, listed v) :: listedEntries es

end

mutual

/-- The tree that is stored: its texts are copied up to their first NUL. -/
def stored : YamlWrap → YamlWrap
  | .scalar value => .scalar (asCString value)
  | .sequence xs => .sequence ((storedElements xs).foldl listAppended [])
  | .mapping es => .mapping (storedEntries es)

def storedElements : List YamlWrap → List YamlWrap
  | [] => []
  | x :: xs => stored x :: storedElements xs

def storedEntries : List (CString × YamlWrap) → List (CString × YamlWrap)
  | [] => []
  | (k, v) :: es => (asCString k, stored v) :: storedEntries es

end

end YamlWrap

end CUtil
end Raiezau
