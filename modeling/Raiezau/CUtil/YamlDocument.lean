import Raiezau.CUtil.YamlTree

/-!
# YamlDocument — when the builder gives the tree its events come from

From the events of a tree the builder gets the tree, if the flag `key` is cleared wherever a key comes, if no
more than 100 nodes lie on a path, and if the copies of the texts and of the sequences are true.  It never
gets it otherwise: a key taken for a value has no name to be stored under, and a push that is dropped takes
the root off the stack too early (`yaml2ParseFile_iff`).
-/

namespace Raiezau
namespace CUtil

/-! ## Containers

A container that the builder holds was started by an event, after the stack was last empty.
-/

namespace YamlWrap

mutual

def containers : YamlWrap → Nat
  | .scalar _ => 0
  | .sequence xs => elementContainers xs + 1
  | .mapping es => entryContainers es + 1

def elementContainers : List YamlWrap → Nat
  | [] => 0
  | x :: xs => containers x + elementContainers xs

def entryContainers : List (CString × YamlWrap) → Nat
  | [] => 0
  | (_, v) :: es => containers v + entryContainers es

end

theorem elementContainers_append (xs ys : List YamlWrap) :
    elementContainers (xs ++ ys) = elementContainers xs + elementContainers ys := by
  induction xs with
  | nil => exact (Nat.zero_add _).symm
  | cons x xs ih => rw [List.cons_append, elementContainers, ih, elementContainers, Nat.add_assoc]

theorem entryContainers_append (es fs : List (CString × YamlWrap)) :
    entryContainers (es ++ fs) = entryContainers es + entryContainers fs := by
  induction es with
  | nil => exact (Nat.zero_add _).symm
  | cons e es ih => rw [List.cons_append, entryContainers, ih, entryContainers, Nat.add_assoc]

theorem elementContainers_listAppended (xs : List YamlWrap) (x : YamlWrap) :
    elementContainers (listAppended xs x) = elementContainers xs + containers x := by
  have hsplit := elementContainers_append (xs.take (xs.length % 2 ^ 32)) (xs.drop (xs.length % 2 ^ 32))
  rw [List.take_append_drop] at hsplit
  rw [listAppended, elementContainers_append, elementContainers]
  omega

theorem containers_attach_le (head : YamlWrap) (key : Option CString) (node : YamlWrap) :
    (attach head key node).containers ≤ head.containers + node.containers := by
  match head, key with
  | .scalar _, none => exact Nat.le_add_right _ _
  | .scalar _, some _ => exact Nat.le_add_right _ _
  | .sequence xs, none =>
      show elementContainers (listAppended xs node) + 1 ≤ elementContainers xs + 1 + node.containers
      rw [elementContainers_listAppended]
      omega
  | .sequence xs, some _ =>
      show elementContainers (listAppended xs node) + 1 ≤ elementContainers xs + 1 + node.containers
      rw [elementContainers_listAppended]
      omega
  | .mapping es, none => exact Nat.le_add_right _ _
  | .mapping es, some k =>
      show entryContainers (es ++ [(k, node)]) + 1 ≤ entryContainers es + 1 + node.containers
      rw [entryContainers_append]
      show entryContainers es + (node.containers + 0) + 1 ≤ _
      omega

end YamlWrap

/-- The containers on a stack. -/
def weight : List Frame → Nat
  | [] => 0
  | frame :: below => frame.node.containers + weight below

theorem weight_stackPush_le (stack : List Frame) (frame : Frame) :
    weight (stackPush stack frame) ≤ weight stack + frame.node.containers := by
  cases stack with
  | nil => exact Nat.le_of_eq (Nat.add_comm _ _)
  | cons head below =>
      unfold stackPush
      dsimp only
      split
      · exact Nat.le_of_eq (Nat.add_comm _ _)
      · have hattach := YamlWrap.containers_attach_le head.node frame.key frame.node
        show (attach head.node frame.key frame.node).containers + weight below ≤
          head.node.containers + weight below + frame.node.containers
        omega

theorem weight_stackPop_le (stack : List Frame) : weight (stackPop stack).2 ≤ weight stack := by
  match stack with
  | [] => exact Nat.le_refl _
  | [frame] => exact Nat.zero_le _
  | frame :: head :: below =>
      have hattach := YamlWrap.containers_attach_le head.node frame.key frame.node
      show (attach head.node frame.key frame.node).containers + weight below ≤
        frame.node.containers + (head.node.containers + weight below)
      omega

theorem containers_stackPop_le {stack : List Frame} {t : YamlWrap} (h : (stackPop stack).1 = some t) :
    t.containers ≤ weight stack := by
  match stack with
  | [] => cases h
  | [frame] =>
      obtain rfl := Option.some.inj h
      exact Nat.le_add_right _ _
  | frame :: head :: below =>
      obtain rfl := Option.some.inj h
      exact Nat.le_add_right _ _

/-- The events that start a container. -/
def starts : List YamlEvent → Nat
  | [] => 0
  | .sequenceStart :: es => starts es + 1
  | .mappingStart :: es => starts es + 1
  | _ :: es => starts es

theorem starts_cons (e : YamlEvent) (es : List YamlEvent) : starts (e :: es) = starts [e] + starts es := by
  cases e <;> simp [starts, Nat.add_comm]

theorem starts_append (es es' : List YamlEvent) : starts (es ++ es') = starts es + starts es' := by
  induction es with
  | nil => exact (Nat.zero_add _).symm
  | cons e es ih => rw [List.cons_append, starts_cons, ih, starts_cons e es, Nat.add_assoc]

namespace ParserState

variable {s s' : ParserState} {e : YamlEvent} {es : List YamlEvent} {value : List Char}

theorem weight_scalarEvent_le (h : s.scalarEvent value = some s') : weight s'.stack ≤ weight s.stack := by
  by_cases hopen : s.stack = []
  · unfold scalarEvent at h
    rw [hopen] at h
    obtain rfl := Option.some.inj h
    exact Nat.zero_le _
  · rcases scalarEvent_cases hopen h with heq | heq
    · rw [heq]
    · rw [heq]
      exact (weight_stackPop_le _).trans (weight_stackPush_le _ _)

theorem weight_step_le (h : s.step e = some s') : weight s'.stack ≤ weight s.stack + starts [e] := by
  cases e with
  | sequenceStart =>
      rw [(step_sequenceStart h).1]
      exact weight_stackPush_le _ _
  | mappingStart =>
      rw [(step_mappingStart h).1]
      exact weight_stackPush_le _ _
  | sequenceEnd =>
      obtain rfl := Option.some.inj h
      exact weight_stackPop_le _
  | mappingEnd =>
      obtain rfl := Option.some.inj h
      exact weight_stackPop_le _
  | scalar value => exact weight_scalarEvent_le h
  | _ =>
      obtain rfl := Option.some.inj h
      exact Nat.le_refl _

theorem weight_steps_le (h : s.steps es = some s') : weight s'.stack ≤ weight s.stack + starts es := by
  induction es generalizing s with
  | nil =>
      obtain rfl : s = s' := Option.some.inj h
      exact Nat.le_refl _
  | cons e es ih =>
      rw [steps_cons, Option.bind_eq_some_iff] at h
      obtain ⟨s₁, hfirst, hrest⟩ := h
      have hone := weight_step_le hfirst
      have hmore := ih hrest
      rw [starts_cons]
      omega

end ParserState

namespace YamlWrap

mutual

theorem starts_events : ∀ t : YamlWrap, starts t.events = t.containers
  | .scalar _ => rfl
  | .sequence xs => by
      rw [events, starts_cons, starts_append, starts_elementEvents xs, containers]
      exact Nat.add_comm _ _
  | .mapping es => by
      rw [events, starts_cons, starts_append, starts_entryEvents es, containers]
      exact Nat.add_comm _ _

theorem starts_elementEvents : ∀ xs : List YamlWrap, starts (elementEvents xs) = elementContainers xs
  | [] => rfl
  | x :: xs => by rw [elementEvents, starts_append, starts_events x, starts_elementEvents xs, elementContainers]

theorem starts_entryEvents : ∀ es : List (CString × YamlWrap), starts (entryEvents es) = entryContainers es
  | [] => rfl
  | (k, v) :: es => by
      rw [entryEvents, starts_cons, starts_append, starts_events v, starts_entryEvents es, entryContainers]
      exact Nat.zero_add _

end

end YamlWrap

/-! ## What is stored -/

theorem mem_listAppended {α : Type} {xs : List α} {x y : α} : y ∈ listAppended xs x ↔ y ∈ xs ∨ y = x := by
  have hsplit : y ∈ xs ↔ y ∈ xs.take (xs.length % 2 ^ 32) ∨ y ∈ xs.drop (xs.length % 2 ^ 32) := by
    rw [← List.mem_append, List.take_append_drop]
  rw [listAppended, List.mem_append, List.mem_cons, hsplit]
  tauto

theorem mem_foldl_listAppended {α : Type} {xs acc : List α} {y : α} :
    y ∈ xs.foldl listAppended acc ↔ y ∈ acc ∨ y ∈ xs := by
  induction xs generalizing acc with
  | nil => simp
  | cons x xs ih => rw [List.foldl_cons, ih, mem_listAppended, List.mem_cons, or_assoc]

/-- Up to `2 ^ 32` elements the order is kept. -/
theorem foldl_listAppended {α : Type} {xs acc : List α} (hlen : acc.length + xs.length ≤ 2 ^ 32) :
    xs.foldl listAppended acc = acc ++ xs := by
  induction xs generalizing acc with
  | nil => exact (List.append_nil acc).symm
  | cons x xs ih =>
      rw [List.length_cons] at hlen
      have hlast : listAppended acc x = acc ++ [x] := listAppended_of_lt x (by omega)
      have hlen' : (acc ++ [x]).length + xs.length ≤ 2 ^ 32 := by
        rw [List.length_append, List.length_singleton]
        omega
      rw [List.foldl_cons, hlast, ih hlen', List.append_assoc, List.singleton_append]

namespace YamlWrap

theorem elementsNoNul_iff {xs : List YamlWrap} : ElementsNoNul xs ↔ ∀ x ∈ xs, NoNul x := by
  induction xs with
  | nil => simp [ElementsNoNul]
  | cons x xs ih => rw [ElementsNoNul, ih, List.forall_mem_cons]

mutual

theorem noNul_stored : ∀ t : YamlWrap, t.stored.NoNul
  | .scalar value => not_mem_asCString value
  | .sequence xs => by
      show ElementsNoNul ((storedElements xs).foldl listAppended [])
      rw [elementsNoNul_iff]
      intro x hx
      rw [mem_foldl_listAppended] at hx
      exact noNul_storedElements xs x (hx.resolve_left List.not_mem_nil)
  | .mapping es => noNul_storedEntries es

theorem noNul_storedElements : ∀ xs : List YamlWrap, ∀ x ∈ storedElements xs, NoNul x
  | [] => nofun
  | x :: xs => by
      intro y hy
      rw [storedElements, List.mem_cons] at hy
      rcases hy with rfl | hy
      · exact noNul_stored x
      · exact noNul_storedElements xs y hy

theorem noNul_storedEntries : ∀ es : List (CString × YamlWrap), EntriesNoNul (storedEntries es)
  | [] => trivial
  | (k, v) :: es => ⟨not_mem_asCString k, noNul_stored v, noNul_storedEntries es⟩

end

mutual

theorem stored_eq_listed : ∀ t : YamlWrap, t.NoNul → t.stored = t.listed
  | .scalar _, h => congrArg scalar (asCString_eq_self h)
  | .sequence xs, h => by rw [stored, listed, storedElements_eq_listed xs h]
  | .mapping es, h => by rw [stored, listed, storedEntries_eq_listed es h]

theorem storedElements_eq_listed : ∀ xs : List YamlWrap, ElementsNoNul xs → storedElements xs = listedElements xs
  | [], _ => rfl
  | x :: xs, h => by
      rw [storedElements, listedElements, stored_eq_listed x h.1, storedElements_eq_listed xs h.2]

theorem storedEntries_eq_listed : ∀ es : List (CString × YamlWrap), EntriesNoNul es →
    storedEntries es = listedEntries es
  | [], _ => rfl
  | (k, v) :: es, h => by
      rw [storedEntries, listedEntries, asCString_eq_self h.1, stored_eq_listed v h.2.1,
        storedEntries_eq_listed es h.2.2]

end

/-- The texts and the sequences of a tree are copied truly. -/
theorem stored_eq_self_iff {t : YamlWrap} : t.stored = t ↔ t.NoNul ∧ t.listed = t := by
  constructor
  · intro heq
    have hnul : t.NoNul := heq ▸ t.noNul_stored
    exact ⟨hnul, (stored_eq_listed t hnul).symm.trans heq⟩
  · rintro ⟨hnul, hlisted⟩
    exact (stored_eq_listed t hnul).trans hlisted

mutual

/-- No sequence has more than `2 ^ 32` elements. -/
def Short : YamlWrap → Prop
  | .scalar _ => True
  | .sequence xs => xs.length ≤ 2 ^ 32 ∧ ElementsShort xs
  | .mapping es => EntriesShort es

def ElementsShort : List YamlWrap → Prop
  | [] => True
  | x :: xs => Short x ∧ ElementsShort xs

def EntriesShort : List (CString × YamlWrap) → Prop
  | [] => True
  | (_, v) :: es => Short v ∧ EntriesShort es

end

mutual

theorem listed_of_short : ∀ t : YamlWrap, t.Short → t.listed = t
  | .scalar _, _ => rfl
  | .sequence xs, h => by
      have hlen : ([] : List YamlWrap).length + xs.length ≤ 2 ^ 32 := (Nat.zero_add _).symm ▸ h.1
      rw [listed, listedElements_of_short xs h.2, foldl_listAppended hlen, List.nil_append]
  | .mapping es, h => by rw [listed, listedEntries_of_short es h]

theorem listedElements_of_short : ∀ xs : List YamlWrap, ElementsShort xs → listedElements xs = xs
  | [], _ => rfl
  | x :: xs, h => by rw [listedElements, listed_of_short x h.1, listedElements_of_short xs h.2]

theorem listedEntries_of_short : ∀ es : List (CString × YamlWrap), EntriesShort es → listedEntries es = es
  | [], _ => rfl
  | (k, v) :: es, h => by rw [listedEntries, listed_of_short v h.1, listedEntries_of_short es h.2]

end

end YamlWrap

/-! ## Documents -/

namespace YamlWrap

open ParserState

/-- What is read of a tree that keeps to the limits. -/
theorem yaml2ParseFile_stored : ∀ t : YamlWrap, t.KeysRead → t.height ≤ stackSize →
    yaml2ParseFile t.document = some (0, some t.stored)
  | .scalar value, _, _ => by
      rw [yaml2ParseFile_document]
      rfl
  | .sequence xs, hread, hheight => by
      have hheight : 1 + elementHeight xs ≤ stackSize := by
        rw [height] at hheight
        omega
      obtain ⟨s, hsteps, hstack, -, -⟩ :=
        placeElements (s := ⟨[⟨.sequence [], none⟩], false, .null, none⟩) xs rfl rfl hheight hread
      rw [yaml2ParseFile_document, events, steps_cons]
      show ((ParserState.mk [⟨.sequence [], none⟩] false .null none).steps _).map _ = _
      rw [steps_append_of hsteps, steps_cons, step_end (.inl rfl), hstack]
      rfl
  | .mapping es, hread, hheight => by
      have hheight : 1 + entryHeight es ≤ stackSize := by
        rw [height] at hheight
        omega
      obtain ⟨s, hsteps, hstack, -, -⟩ :=
        placeEntries (s := ⟨[⟨.mapping [], none⟩], false, .null, none⟩) es rfl rfl hheight hread
      rw [yaml2ParseFile_document, events, steps_cons]
      show ((ParserState.mk [⟨.mapping [], none⟩] false .null none).steps _).map _ = _
      rw [steps_append_of hsteps, steps_cons, step_end (.inr rfl), hstack]
      rfl

/-- A tree that is read in full was never off the stack before its end. -/
theorem stepsOpen_of_parsed {t : YamlWrap} {start stop : YamlEvent} {es : List YamlEvent} {s₁ : ParserState}
    (hevents : t.events = start :: (es ++ [stop])) (hstart : ParserState.init.step start = some s₁)
    (hstop : stop = .sequenceEnd ∨ stop = .mappingEnd) (hcount : starts es < t.containers)
    (h : yaml2ParseFile t.document = some (0, some t)) : ∃ s₂, s₁.stepsOpen es = some s₂ := by
  rw [yaml2ParseFile_document, hevents, steps_cons, hstart, Option.bind_some, Option.map_eq_some_iff] at h
  obtain ⟨s, hsteps, hresult⟩ := h
  rw [steps_append, Option.bind_eq_some_iff] at hsteps
  obtain ⟨s₂, hinner, hlast⟩ := hsteps
  rw [steps_cons, step_end hstop, Option.bind_some] at hlast
  obtain rfl := Option.some.inj hlast
  have hweight : t.containers ≤ weight s₂.stack := by
    have hyamlw := (Prod.mk.inj hresult).2
    dsimp only at hyamlw
    split at hyamlw
    · exact containers_stackPop_le hyamlw
    · exact (containers_stackPop_le hyamlw).trans (weight_stackPop_le _)
  rcases stepsOpen_or_emptied hinner with hopen | ⟨es₁, es₂, s₃, rfl, hempty, hrest⟩
  · exact ⟨s₂, hopen⟩
  · have hle := weight_steps_le hrest
    rw [hempty] at hle
    have hzero : weight [] = 0 := rfl
    rw [starts_append] at hcount
    omega

theorem limits_of_parsed : ∀ t : YamlWrap, yaml2ParseFile t.document = some (0, some t) →
    t.height ≤ stackSize ∧ t.KeysRead
  | .scalar _, _ => ⟨by rw [height]; decide, trivial⟩
  | .sequence xs, h => by
      have hcount : starts (elementEvents xs) < (sequence xs).containers := by
        rw [starts_elementEvents]
        exact Nat.lt_succ_self _
      have hstart : ParserState.init.step .sequenceStart = some ⟨[⟨.sequence [], none⟩], false, .null, none⟩ := rfl
      obtain ⟨s₂, hopen⟩ := stepsOpen_of_parsed rfl hstart (.inl rfl) hcount h
      have hle := length_elementEvents xs (List.cons_ne_nil _ _) hopen
      have hpos := List.length_pos_iff.2 (stack_ne_nil_of_stepsOpen (List.cons_ne_nil _ _) hopen)
      obtain ⟨hheight, hread⟩ := read_of_placedElements xs rfl rfl (by decide) hopen (Nat.le_antisymm hle hpos)
      refine ⟨?_, hread⟩
      rw [height, Nat.add_comm]
      exact hheight
  | .mapping es, h => by
      have hcount : starts (entryEvents es) < (mapping es).containers := by
        rw [starts_entryEvents]
        exact Nat.lt_succ_self _
      have hstart : ParserState.init.step .mappingStart = some ⟨[⟨.mapping [], none⟩], false, .null, none⟩ := rfl
      obtain ⟨s₂, hopen⟩ := stepsOpen_of_parsed rfl hstart (.inr rfl) hcount h
      have hle := length_entryEvents es (List.cons_ne_nil _ _) hopen
      have hpos := List.length_pos_iff.2 (stack_ne_nil_of_stepsOpen (List.cons_ne_nil _ _) hopen)
      obtain ⟨hheight, hread⟩ := read_of_placedEntries es rfl rfl (by decide) hopen (Nat.le_antisymm hle hpos)
      refine ⟨?_, hread⟩
      rw [height, Nat.add_comm]
      exact hheight

end YamlWrap

/-- The builder returns 0 and stores the tree of the document if and only if the flag is cleared wherever a
key comes, at most 100 nodes lie on a path, no text contains NUL and `list_append` keeps the sequences in
order. -/
theorem yaml2ParseFile_iff (t : YamlWrap) :
    yaml2ParseFile t.document = some (0, some t) ↔
      t.KeysRead ∧ t.height ≤ 100 ∧ t.NoNul ∧ t.listed = t := by
  constructor
  · intro h
    obtain ⟨hheight, hread⟩ := t.limits_of_parsed h
    have hstored := t.yaml2ParseFile_stored hread hheight
    rw [h] at hstored
    have heq : t = t.stored := Option.some.inj (Prod.mk.inj (Option.some.inj hstored)).2
    exact ⟨hread, hheight, YamlWrap.stored_eq_self_iff.1 heq.symm⟩
  · rintro ⟨hread, hheight, htrue⟩
    rw [t.yaml2ParseFile_stored hread hheight, YamlWrap.stored_eq_self_iff.2 htrue]

/-- `{a: [x], b: y}`: the key `b` is taken for a value, and stored under `NULL`. -/
theorem key_taken_for_value :
    yaml2ParseFile (YamlWrap.document (.mapping
      [("a".toList, .sequence [.scalar "x".toList]), ("b".toList, .scalar "y".toList)])) = none := rfl

end CUtil
end Raiezau
