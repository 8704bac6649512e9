import Raiezau.CUtil.Yaml
import Raiezau.Machine.Fold

/-!
# YamlTree — the events of a tree, where one is waited for

Where the head of the stack waits for a node, the events of a tree put it there: if the flag `key` is cleared
wherever a key comes, and there is room on the stack (`place`).  If they leave the stack at the size it had,
without emptying it, both was so (`read_of_placed`).
-/

namespace Raiezau
namespace CUtil

open Machine

/-! ## Runs of events -/

namespace ParserState

variable {s s' s₁ : ParserState} {e : YamlEvent} {es es' : List YamlEvent}

def steps (s : ParserState) (es : List YamlEvent) : Option ParserState := es.foldlM step s

theorem steps_cons : s.steps (e :: es) = (s.step e).bind fun s₁ => s₁.steps es := rfl

theorem steps_append : s.steps (es ++ es') = (s.steps es).bind fun s₁ => s₁.steps es' :=
  List.foldlM_append

theorem steps_append_of (h : s.steps es = some s₁) : s.steps (es ++ es') = s₁.steps es' := by
  rw [steps_append, h, Option.bind_some]

/-- An event within a document. -/
def Inner : YamlEvent → Prop
  | .documentEnd => False
  | .streamEnd => False
  | _ => True

theorem parseLoop_append (hinner : ∀ e ∈ es, Inner e) :
    parseLoop s (es ++ es') = (s.steps es).bind fun s₁ => parseLoop s₁ es' := by
  induction es generalizing s with
  | nil => rfl
  | cons e es ih =>
      have hrest : ∀ s₁ : ParserState, parseLoop s₁ (es ++ es') =
          (s₁.steps es).bind fun s₂ => parseLoop s₂ es' :=
        fun s₁ => ih fun e' he' => hinner e' (List.mem_cons_of_mem e he')
      have he := hinner e List.mem_cons_self
      have hstep : parseLoop s (e :: es ++ es') = (s.step e).bind fun s₁ => parseLoop s₁ (es ++ es') := by
        cases e with
        | documentEnd => exact he.elim
        | streamEnd => exact he.elim
        | _ => rfl
      rw [hstep, steps_cons, Option.bind_assoc]
      congr 1
      funext s₁
      exact hrest s₁

/-- A run that never empties the stack. -/
def stepOpen (s : ParserState) (e : YamlEvent) : Option ParserState :=
  (s.step e).filter fun s => !s.stack.isEmpty

def stepsOpen (s : ParserState) (es : List YamlEvent) : Option ParserState := es.foldlM stepOpen s

theorem stepsOpen_cons : s.stepsOpen (e :: es) = (s.stepOpen e).bind fun s₁ => s₁.stepsOpen es := rfl

theorem stepsOpen_append : s.stepsOpen (es ++ es') = (s.stepsOpen es).bind fun s₁ => s₁.stepsOpen es' :=
  List.foldlM_append

theorem stepOpen_eq_some_iff : s.stepOpen e = some s' ↔ s.step e = some s' ∧ s'.stack ≠ [] := by
  unfold stepOpen
  rw [Option.filter_eq_some_iff]
  simp

theorem steps_of_stepsOpen (h : s.stepsOpen es = some s') : s.steps es = some s' := by
  induction es generalizing s with
  | nil => exact h
  | cons e es ih =>
      rw [stepsOpen_cons, Option.bind_eq_some_iff] at h
      obtain ⟨s₁, hfirst, hrest⟩ := h
      rw [steps_cons, (stepOpen_eq_some_iff.1 hfirst).1, Option.bind_some]
      exact ih hrest

/-- A run either never empties the stack, or goes on from where it does. -/
theorem stepsOpen_or_emptied (h : s.steps es = some s') :
    s.stepsOpen es = some s' ∨
      ∃ (es₁ es₂ : List YamlEvent) (s₁ : ParserState), es = es₁ ++ es₂ ∧ s₁.stack = [] ∧
        s₁.steps es₂ = some s' := by
  induction es generalizing s with
  | nil => exact .inl h
  | cons e es ih =>
      rw [steps_cons, Option.bind_eq_some_iff] at h
      obtain ⟨s₁, hfirst, hrest⟩ := h
      by_cases hempty : s₁.stack = []
      · exact .inr ⟨[e], es, s₁, rfl, hempty, hrest⟩
      · rcases ih hrest with hopen | ⟨es₁, es₂, s₂, rfl, hs₂, hlast⟩
        · left
          rw [stepsOpen_cons, stepOpen_eq_some_iff.2 ⟨hfirst, hempty⟩, Option.bind_some]
          exact hopen
        · exact .inr ⟨e :: es₁, es₂, s₂, rfl, hs₂, hlast⟩

end ParserState

namespace YamlWrap

mutual

theorem inner_events : ∀ t : YamlWrap, ∀ e ∈ t.events, ParserState.Inner e
  | .scalar value => by
      intro e he
      rw [events, List.mem_singleton] at he
      subst he
      trivial
  | .sequence xs => by
      intro e he
      rw [events, List.mem_cons, List.mem_append, List.mem_singleton] at he
      rcases he with rfl | he | rfl
      · trivial
      · exact inner_elementEvents xs e he
      · trivial
  | .mapping es => by
      intro e he
      rw [events, List.mem_cons, List.mem_append, List.mem_singleton] at he
      rcases he with rfl | he | rfl
      · trivial
      · exact inner_entryEvents es e he
      · trivial

theorem inner_elementEvents : ∀ xs : List YamlWrap, ∀ e ∈ elementEvents xs, ParserState.Inner e
  | [] => nofun
  | x :: xs => by
      intro e he
      rw [elementEvents, List.mem_append] at he
      rcases he with he | he
      · exact inner_events x e he
      · exact inner_elementEvents xs e he

theorem inner_entryEvents : ∀ es : List (CString × YamlWrap), ∀ e ∈ entryEvents es, ParserState.Inner e
  | [] => nofun
  | (k, v) :: es => by
      intro e he
      rw [entryEvents, List.mem_cons, List.mem_append] at he
      rcases he with rfl | he | he
      · trivial
      · exact inner_events v e he
      · exact inner_entryEvents es e he

end

end YamlWrap

/-- What the builder makes of a document. -/
theorem yaml2ParseFile_document (t : YamlWrap) :
    yaml2ParseFile t.document = (ParserState.init.steps t.events).map fun s =>
      (0, if s.stack.isEmpty then s.yamlw else (stackPop s.stack).1) := by
  have hdocument : t.document = .streamStart :: .documentStart :: (t.events ++ [.documentEnd, .streamEnd]) :=
    rfl
  have hstart : yaml2ParseFile t.document = parseLoop .init (t.events ++ [.documentEnd, .streamEnd]) := by
    rw [hdocument]
    rfl
  rw [hstart, ParserState.parseLoop_append t.inner_events]
  cases ParserState.init.steps t.events <;> rfl

/-! ## The stack -/

theorem stackPush_of_lt {stack : List Frame} {frame : Frame} (hlt : stack.length < stackSize) :
    stackPush stack frame = frame :: stack := by
  cases stack with
  | nil => rfl
  | cons head below => exact if_pos hlt

theorem length_stackPush_le (stack : List Frame) (frame : Frame) :
    (stackPush stack frame).length ≤ stack.length + 1 := by
  cases stack with
  | nil => exact Nat.le_refl 1
  | cons head below =>
      unfold stackPush
      dsimp only
      split
      · exact Nat.le_refl _
      · exact Nat.le_succ _

/-- A dropped push. -/
theorem length_stackPush_full {stack : List Frame} (frame : Frame) (hfull : stackSize ≤ stack.length) :
    (stackPush stack frame).length = stack.length := by
  cases stack with
  | nil => exact absurd hfull (by decide)
  | cons head below =>
      unfold stackPush
      dsimp only
      rw [if_neg (Nat.not_lt_of_le hfull)]
      rfl

theorem length_stackPop (stack : List Frame) : (stackPop stack).2.length = stack.length - 1 := by
  match stack with
  | [] => rfl
  | [frame] => rfl
  | frame :: head :: below => rfl

theorem parserStackPush_eq_some {stack stack' : List Frame} {node : YamlWrap} {keyname : KeyName}
    (h : parserStackPush stack node keyname = some stack') :
    stack' = stackPush stack ⟨node, keyname.toOption⟩ := by
  unfold parserStackPush at h
  split at h
  · cases h
  · exact (Option.some.inj h).symm

namespace ParserState

variable {s s' s₁ : ParserState} {e : YamlEvent} {es es' : List YamlEvent} {value : List Char}

/-- A scalar on an open stack is a key, or is pushed and popped. -/
theorem scalarEvent_cases (hopen : s.stack ≠ []) (h : s.scalarEvent value = some s') :
    s'.stack = s.stack ∨
      s'.stack = (stackPop (stackPush s.stack ⟨.scalar (asCString value), s.keyname.toOption⟩)).2 := by
  unfold scalarEvent at h
  split at h
  · next hnil => exact absurd hnil hopen
  · split at h
    · split at h
      · obtain rfl := Option.some.inj h
        exact .inl rfl
      · rw [Option.bind_eq_bind, Option.bind_eq_some_iff] at h
        obtain ⟨stack, hpush, hs⟩ := h
        obtain rfl := Option.some.inj hs
        rw [← parserStackPush_eq_some hpush]
        exact .inr rfl
    · rw [Option.bind_eq_bind, Option.bind_eq_some_iff] at h
      obtain ⟨stack, hpush, hs⟩ := h
      obtain rfl := Option.some.inj hs
      rw [← parserStackPush_eq_some hpush]
      exact .inr rfl
    · cases h

theorem step_sequenceStart (h : s.step .sequenceStart = some s') :
    s'.stack = stackPush s.stack ⟨.sequence [], s.keyname.toOption⟩ ∧ s'.keyname = .null ∧ s'.key = s.key := by
  unfold step at h
  rw [Option.bind_eq_bind, Option.bind_eq_some_iff] at h
  obtain ⟨stack, hpush, hs⟩ := h
  obtain rfl := Option.some.inj hs
  exact ⟨parserStackPush_eq_some hpush, rfl, rfl⟩

theorem step_mappingStart (h : s.step .mappingStart = some s') :
    s'.stack = stackPush s.stack ⟨.mapping [], s.keyname.toOption⟩ ∧ s'.keyname = .null ∧ s'.key = false := by
  unfold step at h
  rw [Option.bind_eq_bind, Option.bind_eq_some_iff] at h
  obtain ⟨stack, hpush, hs⟩ := h
  obtain rfl := Option.some.inj hs
  exact ⟨parserStackPush_eq_some hpush, rfl, rfl⟩

/-! ## The size of an open stack -/

theorem length_step_scalar (hopen : s.stack ≠ []) (h : s.step (.scalar value) = some s') :
    s'.stack.length ≤ s.stack.length := by
  rcases scalarEvent_cases hopen h with heq | heq
  · rw [heq]
  · have hle := length_stackPush_le s.stack ⟨.scalar (asCString value), s.keyname.toOption⟩
    rw [heq, length_stackPop]
    omega

theorem length_step_start (he : e = .sequenceStart ∨ e = .mappingStart) (h : s.step e = some s') :
    s'.stack.length ≤ s.stack.length + 1 := by
  rcases he with rfl | rfl
  · rw [(step_sequenceStart h).1]
    exact length_stackPush_le _ _
  · rw [(step_mappingStart h).1]
    exact length_stackPush_le _ _

theorem step_end (he : e = .sequenceEnd ∨ e = .mappingEnd) :
    s.step e = some { s with stack := (stackPop s.stack).2, yamlw := (stackPop s.stack).1 } := by
  rcases he with rfl | rfl <;> rfl

theorem stack_ne_nil_of_stepsOpen (hopen : s.stack ≠ []) (h : s.stepsOpen es = some s') : s'.stack ≠ [] :=
  foldlM_invariant (I := fun s => s.stack ≠ []) (fun _ hs => (stepOpen_eq_some_iff.1 hs).2) hopen h

/-- A node in brackets takes no more room than it found. -/
theorem length_brackets {start stop : YamlEvent} (hstart : start = .sequenceStart ∨ start = .mappingStart)
    (hstop : stop = .sequenceEnd ∨ stop = .mappingEnd) (h : s.stepsOpen (start :: (es ++ [stop])) = some s')
    (hinner : ∀ s₁ s₂ : ParserState, s₁.stack ≠ [] → s₁.stepsOpen es = some s₂ →
      s₂.stack.length ≤ s₁.stack.length) :
    s'.stack.length ≤ s.stack.length := by
  rw [stepsOpen_cons, Option.bind_eq_some_iff] at h
  obtain ⟨s₁, hfirst, h⟩ := h
  rw [stepsOpen_append, Option.bind_eq_some_iff] at h
  obtain ⟨s₂, hmiddle, hlast⟩ := h
  obtain ⟨hfirst, hopen₁⟩ := stepOpen_eq_some_iff.1 hfirst
  have hlen₁ := length_step_start hstart hfirst
  have hlen₂ := hinner s₁ s₂ hopen₁ hmiddle
  have hstep : s₂.step stop = some s' := by
    have hsteps := steps_of_stepsOpen hlast
    rw [steps_cons, Option.bind_eq_some_iff] at hsteps
    obtain ⟨s₃, hs₃, hnil⟩ := hsteps
    exact hs₃.trans hnil
  rw [step_end hstop] at hstep
  have hs' := congrArg (fun s => s.stack.length) (Option.some.inj hstep)
  dsimp only at hs'
  rw [length_stackPop] at hs'
  omega

end ParserState

namespace YamlWrap

open ParserState

mutual

theorem length_events {s s' : ParserState} : ∀ t : YamlWrap, s.stack ≠ [] → s.stepsOpen t.events = some s' →
    s'.stack.length ≤ s.stack.length
  | .scalar value, hopen, h => by
      have hsteps := steps_of_stepsOpen h
      rw [events, steps_cons, Option.bind_eq_some_iff] at hsteps
      obtain ⟨s₁, hs₁, hnil⟩ := hsteps
      obtain rfl : s₁ = s' := Option.some.inj hnil
      exact length_step_scalar hopen hs₁
  | .sequence xs, _, h => length_brackets (.inl rfl) (.inl rfl) h fun _ _ hopen h => length_elementEvents xs hopen h
  | .mapping es, _, h => length_brackets (.inr rfl) (.inr rfl) h fun _ _ hopen h => length_entryEvents es hopen h

theorem length_elementEvents {s s' : ParserState} : ∀ xs : List YamlWrap, s.stack ≠ [] →
    s.stepsOpen (elementEvents xs) = some s' → s'.stack.length ≤ s.stack.length
  | [], _, h => by
      obtain rfl : s = s' := Option.some.inj h
      exact Nat.le_refl _
  | x :: xs, hopen, h => by
      rw [elementEvents, stepsOpen_append, Option.bind_eq_some_iff] at h
      obtain ⟨s₁, hfirst, hrest⟩ := h
      have hopen₁ := stack_ne_nil_of_stepsOpen hopen hfirst
      exact (length_elementEvents xs hopen₁ hrest).trans (length_events x hopen hfirst)

theorem length_entryEvents {s s' : ParserState} : ∀ es : List (CString × YamlWrap), s.stack ≠ [] →
    s.stepsOpen (entryEvents es) = some s' → s'.stack.length ≤ s.stack.length
  | [], _, h => by
      obtain rfl : s = s' := Option.some.inj h
      exact Nat.le_refl _
  | (k, v) :: es, hopen, h => by
      rw [entryEvents, stepsOpen_cons, Option.bind_eq_some_iff] at h
      obtain ⟨s₁, hkey, h⟩ := h
      rw [stepsOpen_append, Option.bind_eq_some_iff] at h
      obtain ⟨s₂, hfirst, hrest⟩ := h
      obtain ⟨hkey, hopen₁⟩ := stepOpen_eq_some_iff.1 hkey
      have hopen₂ := stack_ne_nil_of_stepsOpen hopen₁ hfirst
      calc s'.stack.length
          ≤ s₂.stack.length := length_entryEvents es hopen₂ hrest
        _ ≤ s₁.stack.length := length_events v hopen₁ hfirst
        _ ≤ s.stack.length := length_step_scalar hopen hkey

end

end YamlWrap

/-! ## A tree put where one is expected -/

/-- The head of the stack waits for a node: an element, or the value of the key that was read. -/
def Waits (s : ParserState) (head : Frame) (below : List Frame) : Prop :=
  s.stack = head :: below ∧
    ((∃ xs, head.node = .sequence xs ∧ s.keyname = .null) ∨
      ∃ es k, head.node = .mapping es ∧ s.keyname = .text k ∧ s.key = true)

/-- The flag after a node is put in the head of the stack. -/
def nextFlag (head : YamlWrap) (key : Bool) (t : YamlWrap) : Bool :=
  if head.isMapping then t.valueFlag else t.elementFlag key

/-- The node was put in the head of the stack. -/
structure Placed (s s' : ParserState) (head : Frame) (below : List Frame) (t : YamlWrap) : Prop where
  stack_eq : s'.stack = ⟨attach head.node s.keyname.toOption t.stored, head.key⟩ :: below
  keyname_eq : s'.keyname = .null
  key_eq : s'.key = nextFlag head.node s.key t

section

variable {s s' : ParserState} {head : Frame} {below : List Frame} {node : YamlWrap}

theorem Waits.push (h : Waits s head below) (node : YamlWrap) :
    parserStackPush s.stack node s.keyname = some (stackPush s.stack ⟨node, s.keyname.toOption⟩) := by
  obtain ⟨hstack, ⟨xs, hhead, hnull⟩ | ⟨es, k, hhead, htext, -⟩⟩ := h
  · unfold parserStackPush
    rw [hstack, hnull, List.head?_cons, Option.any_some, hhead]
    rfl
  · unfold parserStackPush
    rw [htext]
    simp

theorem waits_sequence {xs : List YamlWrap} {k : Option CString} (hstack : s.stack = ⟨.sequence xs, k⟩ :: below)
    (hnull : s.keyname = .null) : Waits s ⟨.sequence xs, k⟩ below :=
  ⟨hstack, .inl ⟨xs, rfl, hnull⟩⟩

/-- A scalar that is waited for is pushed and popped. -/
theorem Waits.stack_eq {value : List Char} (h : Waits s head below) (hstep : s.step (.scalar value) = some s') :
    s'.stack = (stackPop (stackPush s.stack ⟨.scalar (asCString value), s.keyname.toOption⟩)).2 := by
  have hpush := h.push (.scalar (asCString value))
  have hstep : s.scalarEvent value = some s' := hstep
  obtain ⟨headNode, headKey⟩ := head
  unfold ParserState.scalarEvent at hstep
  rw [hpush] at hstep
  obtain ⟨hstack, ⟨xs, rfl, hnull⟩ | ⟨es, k, rfl, htext, hkey⟩⟩ := h
  · rw [hstack] at hstep ⊢
    obtain rfl := Option.some.inj hstep
    rfl
  · rw [hstack, hkey] at hstep
    rw [hstack]
    obtain rfl := Option.some.inj hstep
    rfl

theorem Waits.scalar (h : Waits s head below) (value : List Char) (hroom : s.stack.length < stackSize) :
    ∃ s', s.step (.scalar value) = some s' ∧ Placed s s' head below (.scalar value) := by
  have hpush := h.push (.scalar (asCString value))
  rw [stackPush_of_lt hroom] at hpush
  obtain ⟨headNode, headKey⟩ := head
  obtain ⟨hstack, ⟨xs, rfl, hnull⟩ | ⟨es, k, rfl, htext, hkey⟩⟩ := h
  · refine ⟨{ s with
      stack := ⟨attach (.sequence xs) s.keyname.toOption (.scalar (asCString value)), headKey⟩ :: below
      keyname := .null }, ?_, ⟨rfl, rfl, rfl⟩⟩
    show s.scalarEvent value = _
    unfold ParserState.scalarEvent
    rw [hpush, hstack, hnull]
    rfl
  · refine ⟨{ s with
      stack := ⟨attach (.mapping es) s.keyname.toOption (.scalar (asCString value)), headKey⟩ :: below
      keyname := .null
      key := false }, ?_, ⟨rfl, rfl, rfl⟩⟩
    show s.scalarEvent value = _
    unfold ParserState.scalarEvent
    rw [hpush, hstack, hkey]
    rfl

end

namespace YamlWrap

open ParserState

/-- What the brackets around the children do. -/
theorem place_brackets {s : ParserState} {head : Frame} {below : List Frame} {start stop : YamlEvent} {full : YamlWrap}
    (empty : YamlWrap) {b : Bool} {es : List YamlEvent} {t : YamlWrap} (h : Waits s head below)
    (hroom : s.stack.length < stackSize) (hevents : t.events = start :: (es ++ [stop]))
    (hstart : ∀ stack, parserStackPush s.stack empty s.keyname = some stack →
      s.step start = some { s with stack := stack, keyname := .null, key := b })
    (hstop : stop = .sequenceEnd ∨ stop = .mappingEnd)
    (hinner : ∀ s₁ : ParserState, s₁.stack = ⟨empty, s.keyname.toOption⟩ :: head :: below →
      s₁.keyname = .null → s₁.key = b →
      ∃ s₂, s₁.steps es = some s₂ ∧ s₂.stack = ⟨full, s.keyname.toOption⟩ :: head :: below ∧
        s₂.keyname = .null ∧ s₂.key = nextFlag head.node s.key t)
    (hfull : full = t.stored) :
    ∃ s', s.steps t.events = some s' ∧ Placed s s' head below t := by
  have hpush := h.push empty
  rw [stackPush_of_lt hroom, h.1] at hpush
  obtain ⟨s₂, hsteps, hstack₂, hnull₂, hkey₂⟩ := hinner
    { s with stack := ⟨empty, s.keyname.toOption⟩ :: head :: below, keyname := .null, key := b } rfl rfl rfl
  have hpush' : parserStackPush s.stack empty s.keyname =
      some (⟨empty, s.keyname.toOption⟩ :: head :: below) := by
    rw [h.1]
    exact hpush
  refine ⟨{ s₂ with stack := (stackPop s₂.stack).2, yamlw := (stackPop s₂.stack).1 }, ?_, ?_, hnull₂, hkey₂⟩
  · rw [hevents, steps_cons, hstart _ hpush', Option.bind_some, steps_append, hsteps, Option.bind_some,
      steps_cons, step_end hstop]
    rfl
  · dsimp only
    rw [hstack₂, hfull]
    rfl

mutual

/-- The tree is put where it is expected. -/
theorem place {s : ParserState} {head : Frame} {below : List Frame} : ∀ t : YamlWrap, Waits s head below →
    s.stack.length + t.height ≤ stackSize → t.KeysRead →
    ∃ s', s.steps t.events = some s' ∧ Placed s s' head below t
  | .scalar value, h, hroom, _ => by
      rw [height] at hroom
      obtain ⟨s', hstep, hplaced⟩ := h.scalar value (Nat.lt_of_succ_le hroom)
      refine ⟨s', ?_, hplaced⟩
      rw [events, steps_cons, hstep]
      rfl
  | .sequence xs, h, hroom, hread => by
      rw [height] at hroom
      refine place_brackets (.sequence []) (b := s.key) h (by omega) rfl (fun stack hpush => ?_) (.inl rfl)
        (fun s₁ hstack hnull hkey => ?_) rfl
      · unfold step
        rw [hpush]
        rfl
      · obtain ⟨s₂, hsteps, hstack₂, hnull₂, hkey₂⟩ := placeElements xs hstack hnull
          (by rw [hstack, List.length_cons, ← h.1]; omega) hread
        refine ⟨s₂, hsteps, hstack₂, hnull₂, hkey₂.trans ?_⟩
        rw [hkey]
        obtain ⟨-, ⟨ys, hhead, -⟩ | ⟨es, k, hhead, -, htrue⟩⟩ := h
        · rw [nextFlag, hhead]
          rfl
        · rw [nextFlag, hhead, htrue]
          rfl
  | .mapping es, h, hroom, hread => by
      rw [height] at hroom
      refine place_brackets (.mapping []) (b := false) h (by omega) rfl (fun stack hpush => ?_) (.inr rfl)
        (fun s₁ hstack hnull hkey => ?_) rfl
      · unfold step
        rw [hpush]
        rfl
      · obtain ⟨s₂, hsteps, hstack₂, hnull₂, hkey₂⟩ := placeEntries es hstack hnull
          (by rw [hstack, List.length_cons, ← h.1]; omega) (hkey.symm ▸ hread)
        refine ⟨s₂, hsteps, hstack₂, hnull₂, hkey₂.trans ?_⟩
        rw [hkey]
        unfold nextFlag
        split <;> rfl

theorem placeElements {s : ParserState} {below : List Frame} {k : Option CString} :
    ∀ (xs : List YamlWrap) {acc : List YamlWrap},
    s.stack = ⟨.sequence acc, k⟩ :: below → s.keyname = .null →
    s.stack.length + elementHeight xs ≤ stackSize → ElementsRead xs →
    ∃ s', s.steps (elementEvents xs) = some s' ∧
      s'.stack = ⟨.sequence ((storedElements xs).foldl listAppended acc), k⟩ :: below ∧ s'.keyname = .null ∧
      s'.key = elementsFlag xs s.key
  | [], acc, hstack, hnull, _, _ => ⟨s, rfl, hstack, hnull, rfl⟩
  | x :: xs, acc, hstack, hnull, hroom, hread => by
      rw [elementHeight] at hroom
      obtain ⟨s₁, hsteps₁, hplaced⟩ := place x (waits_sequence hstack hnull) (by omega) hread.1
      have hstack₁ := hplaced.stack_eq
      rw [hnull] at hstack₁
      have hlen : s₁.stack.length = s.stack.length := by rw [hstack₁, hstack, List.length_cons, List.length_cons]
      obtain ⟨s', hsteps, hstack', hnull', hkey'⟩ := placeElements xs hstack₁ hplaced.keyname_eq (by omega) hread.2
      refine ⟨s', ?_, hstack', hnull', hkey'.trans ?_⟩
      · rw [elementEvents, steps_append_of hsteps₁]
        exact hsteps
      · rw [hplaced.key_eq]
        rfl

theorem placeEntries {s : ParserState} {below : List Frame} {k : Option CString} :
    ∀ (es : List (CString × YamlWrap)) {acc : HashTable YamlWrap},
    s.stack = ⟨.mapping acc, k⟩ :: below → s.keyname = .null →
    s.stack.length + entryHeight es ≤ stackSize → EntriesRead es s.key →
    ∃ s', s.steps (entryEvents es) = some s' ∧
      s'.stack = ⟨.mapping (acc ++ storedEntries es), k⟩ :: below ∧ s'.keyname = .null ∧
      s'.key = entriesFlag es s.key
  | [], acc, hstack, hnull, _, _ => ⟨s, rfl, by rw [storedEntries, List.append_nil]; exact hstack, hnull, rfl⟩
  | (key, v) :: es, acc, hstack, hnull, hroom, hread => by
      obtain ⟨hkey, hreadv, hreades⟩ := hread
      rw [entryHeight] at hroom
      have hstep : s.step (.scalar key) = some { s with keyname := .text (asCString key), key := true } := by
        show s.scalarEvent key = _
        unfold scalarEvent
        rw [hstack]
        dsimp only
        rw [hkey]
        rfl
      have hwaits : Waits { s with keyname := .text (asCString key), key := true } ⟨.mapping acc, k⟩ below :=
        ⟨hstack, .inr ⟨acc, asCString key, rfl, rfl, rfl⟩⟩
      obtain ⟨s₁, hsteps₁, hplaced⟩ := place v hwaits (show s.stack.length + v.height ≤ stackSize by omega) hreadv
      have hstack₁ : s₁.stack = ⟨.mapping (htAddEntry acc (asCString key) v.stored), k⟩ :: below :=
        hplaced.stack_eq
      have hkey₁ : s₁.key = v.valueFlag := hplaced.key_eq
      have hlen : s₁.stack.length = s.stack.length := by rw [hstack₁, hstack, List.length_cons, List.length_cons]
      obtain ⟨s', hsteps, hstack', hnull', hkey'⟩ :=
        placeEntries es hstack₁ hplaced.keyname_eq (by omega) (hkey₁.symm ▸ hreades)
      refine ⟨s', ?_, ?_, hnull', ?_⟩
      · rw [entryEvents, steps_cons, hstep, Option.bind_some, steps_append_of hsteps₁]
        exact hsteps
      · rw [hstack', htAddEntry, Assoc.Table.add, List.append_assoc, storedEntries, List.singleton_append]
      · rw [hkey', hkey₁]
        rfl

end

end YamlWrap

/-! ## What a tree in its place says of it -/

namespace YamlWrap

open ParserState

/-- A pushed node is not dropped when the stack has its size back behind the brackets. -/
theorem room_of_brackets {s s' : ParserState} {start stop : YamlEvent} {es : List YamlEvent} {node : YamlWrap}
    (hstart : ∀ s₁, s.step start = some s₁ → s₁.stack = stackPush s.stack ⟨node, s.keyname.toOption⟩)
    (hstop : stop = .sequenceEnd ∨ stop = .mappingEnd) (h : s.stepsOpen (start :: (es ++ [stop])) = some s')
    (hinner : ∀ s₁ s₂ : ParserState, s₁.stack ≠ [] → s₁.stepsOpen es = some s₂ →
      s₂.stack.length ≤ s₁.stack.length)
    (hopen : s.stack ≠ []) (hlen : s'.stack.length = s.stack.length) :
    ∃ s₁ s₂, s.stack.length < stackSize ∧ s.step start = some s₁ ∧
      s₁.stack = ⟨node, s.keyname.toOption⟩ :: s.stack ∧ s₁.stepsOpen es = some s₂ ∧
      s₂.stack.length = s₁.stack.length := by
  rw [stepsOpen_cons, Option.bind_eq_some_iff] at h
  obtain ⟨s₁, hfirst, h⟩ := h
  rw [stepsOpen_append, Option.bind_eq_some_iff] at h
  obtain ⟨s₂, hmiddle, hlast⟩ := h
  obtain ⟨hfirst, hopen₁⟩ := stepOpen_eq_some_iff.1 hfirst
  have hlen₂ := hinner s₁ s₂ hopen₁ hmiddle
  have hpop : s'.stack.length = s₂.stack.length - 1 := by
    have hsteps := steps_of_stepsOpen hlast
    rw [steps_cons, step_end hstop, Option.bind_some] at hsteps
    rw [← Option.some.inj hsteps]
    exact length_stackPop _
  have hpos : 0 < s.stack.length := List.length_pos_iff.2 hopen
  have hstack₁ := hstart s₁ hfirst
  have hroom : s.stack.length < stackSize := by
    by_contra hfull
    have hfull' := length_stackPush_full ⟨node, s.keyname.toOption⟩ (Nat.le_of_not_lt hfull)
    rw [hstack₁] at hlen₂
    omega
  rw [stackPush_of_lt hroom] at hstack₁
  refine ⟨s₁, s₂, hroom, hfirst, hstack₁, hmiddle, ?_⟩
  have hone : s₁.stack.length = s.stack.length + 1 := by rw [hstack₁, List.length_cons]
  omega

/-- A key that comes while the flag is set has no name to be stored under. -/
theorem key_eq_false {s s₁ : ParserState} {acc : HashTable YamlWrap} {k : Option CString} {below : List Frame}
    {key : CString} (hstack : s.stack = ⟨.mapping acc, k⟩ :: below) (hnull : s.keyname = .null)
    (h : s.step (.scalar key) = some s₁) :
    s.key = false ∧ s₁ = { s with keyname := .text (asCString key), key := true } := by
  have h : s.scalarEvent key = some s₁ := h
  unfold scalarEvent at h
  rw [hstack] at h
  dsimp only at h
  cases hkey : s.key with
  | false =>
      rw [hkey] at h
      exact ⟨rfl, (Option.some.inj h).symm.trans (by rw [hstack])⟩
  | true =>
      rw [hkey, hnull] at h
      cases h

mutual

theorem read_of_placed {s s' : ParserState} {head : Frame} {below : List Frame} : ∀ t : YamlWrap,
    Waits s head below → s.stepsOpen t.events = some s' → s'.stack.length = s.stack.length →
    s.stack.length + t.height ≤ stackSize ∧ t.KeysRead
  | .scalar value, hwaits, h, hlen => by
      have hopen : s.stack ≠ [] := by
        rw [hwaits.1]
        nofun
      have hpos : 0 < s.stack.length := List.length_pos_iff.2 hopen
      have hstep : s.step (.scalar value) = some s' := by
        have hsteps := steps_of_stepsOpen h
        rw [events, steps_cons, Option.bind_eq_some_iff] at hsteps
        obtain ⟨s₁, hs₁, hnil⟩ := hsteps
        exact hs₁.trans hnil
      refine ⟨?_, trivial⟩
      rw [height]
      by_contra hfull
      -- The scalar is not pushed, and the head is popped in its place.
      have hdropped := length_stackPush_full ⟨.scalar (asCString value), s.keyname.toOption⟩
        (show stackSize ≤ s.stack.length by omega)
      rw [hwaits.stack_eq hstep, length_stackPop, hdropped] at hlen
      omega
  | .sequence xs, hwaits, h, hlen => by
      have hopen : s.stack ≠ [] := by
        rw [hwaits.1]
        nofun
      obtain ⟨s₁, s₂, hroom, hfirst, hstack₁, hmiddle, hlen₂⟩ :=
        room_of_brackets (fun _ hs => (step_sequenceStart hs).1) (.inl rfl) h
          (fun _ _ hopen h => length_elementEvents xs hopen h) hopen hlen
      have hlen₁ : s₁.stack.length = s.stack.length + 1 := by rw [hstack₁, List.length_cons]
      obtain ⟨hheight, hread⟩ := read_of_placedElements xs hstack₁ (step_sequenceStart hfirst).2.1
        (by omega) hmiddle hlen₂
      refine ⟨?_, hread⟩
      rw [height]
      omega
  | .mapping es, hwaits, h, hlen => by
      have hopen : s.stack ≠ [] := by
        rw [hwaits.1]
        nofun
      obtain ⟨s₁, s₂, hroom, hfirst, hstack₁, hmiddle, hlen₂⟩ :=
        room_of_brackets (fun _ hs => (step_mappingStart hs).1) (.inr rfl) h
          (fun _ _ hopen h => length_entryEvents es hopen h) hopen hlen
      have hlen₁ : s₁.stack.length = s.stack.length + 1 := by rw [hstack₁, List.length_cons]
      obtain ⟨-, hnull, hkey⟩ := step_mappingStart hfirst
      obtain ⟨hheight, hread⟩ := read_of_placedEntries es hstack₁ hnull (by omega) hmiddle hlen₂
      refine ⟨?_, ?_⟩
      · rw [height]
        omega
      · rw [hkey] at hread
        exact hread

theorem read_of_placedElements {s s' : ParserState} {below : List Frame} {k : Option CString} :
    ∀ (xs : List YamlWrap) {acc : List YamlWrap}, s.stack = ⟨.sequence acc, k⟩ :: below → s.keyname = .null →
    s.stack.length ≤ stackSize → s.stepsOpen (elementEvents xs) = some s' →
    s'.stack.length = s.stack.length →
    s.stack.length + elementHeight xs ≤ stackSize ∧ ElementsRead xs
  | [], acc, _, _, hroom, _, _ => ⟨hroom, trivial⟩
  | x :: xs, acc, hstack, hnull, hroom, h, hlen => by
      have hopen : s.stack ≠ [] := by
        rw [hstack]
        nofun
      rw [elementEvents, stepsOpen_append, Option.bind_eq_some_iff] at h
      obtain ⟨s₁, hfirst, hrest⟩ := h
      have hle₁ := length_events x hopen hfirst
      have hle₂ := length_elementEvents xs (stack_ne_nil_of_stepsOpen hopen hfirst) hrest
      have hwaits := waits_sequence hstack hnull
      obtain ⟨hheight, hread⟩ := read_of_placed x hwaits hfirst (by omega)
      obtain ⟨s₁', hsteps, hplaced⟩ := place x hwaits hheight hread
      obtain rfl : s₁ = s₁' := Option.some.inj ((steps_of_stepsOpen hfirst).symm.trans hsteps)
      have hstack₁ := hplaced.stack_eq
      rw [hnull] at hstack₁
      obtain ⟨hheight', hread'⟩ :=
        read_of_placedElements xs hstack₁ hplaced.keyname_eq (by omega) hrest (by omega)
      refine ⟨?_, hread, hread'⟩
      rw [elementHeight]
      omega

theorem read_of_placedEntries {s s' : ParserState} {below : List Frame} {k : Option CString} :
    ∀ (es : List (CString × YamlWrap)) {acc : HashTable YamlWrap}, s.stack = ⟨.mapping acc, k⟩ :: below →
    s.keyname = .null → s.stack.length ≤ stackSize → s.stepsOpen (entryEvents es) = some s' →
    s'.stack.length = s.stack.length →
    s.stack.length + entryHeight es ≤ stackSize ∧ EntriesRead es s.key
  | [], acc, _, _, hroom, _, _ => ⟨hroom, trivial⟩
  | (key, v) :: es, acc, hstack, hnull, hroom, h, hlen => by
      rw [entryEvents, stepsOpen_cons, Option.bind_eq_some_iff] at h
      obtain ⟨s₁, hkey, h⟩ := h
      rw [stepsOpen_append, Option.bind_eq_some_iff] at h
      obtain ⟨s₂, hfirst, hrest⟩ := h
      obtain ⟨hkey, hopen₁⟩ := stepOpen_eq_some_iff.1 hkey
      obtain ⟨hfalse, rfl⟩ := key_eq_false hstack hnull hkey
      have hle₂ := length_events v hopen₁ hfirst
      have hle₃ := length_entryEvents es (stack_ne_nil_of_stepsOpen hopen₁ hfirst) hrest
      have hwaits : Waits { s with keyname := .text (asCString key), key := true } ⟨.mapping acc, k⟩ below :=
        ⟨hstack, .inr ⟨acc, asCString key, rfl, rfl, rfl⟩⟩
      dsimp only at hle₂
      obtain ⟨hheight, hread⟩ := read_of_placed v hwaits hfirst (by dsimp only; omega)
      obtain ⟨s₂', hsteps, hplaced⟩ := place v hwaits hheight hread
      obtain rfl : s₂ = s₂' := Option.some.inj ((steps_of_stepsOpen hfirst).symm.trans hsteps)
      have hstack₂ : s₂.stack = ⟨.mapping (htAddEntry acc (asCString key) v.stored), k⟩ :: below :=
        hplaced.stack_eq
      have hkey₂ : s₂.key = v.valueFlag := hplaced.key_eq
      obtain ⟨hheight', hread'⟩ :=
        read_of_placedEntries es hstack₂ hplaced.keyname_eq (by omega) hrest (by omega)
      refine ⟨?_, hfalse, hread, hkey₂ ▸ hread'⟩
      have hheight : s.stack.length + v.height ≤ stackSize := hheight
      rw [entryHeight]
      omega

end

end YamlWrap

end CUtil
end Raiezau
