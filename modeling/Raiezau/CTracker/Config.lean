import Raiezau.CUtil.UtHashSameKey
import Raiezau.CUtil.Yaml

/-!
# Config — the options of the tracker (`tracker/config.c`)

Every option given is added to one table, also when it was given before, and what the configuration file says is
added where the key is absent.  So which of several `-p` counts is up to the lookup in the table.
-/

namespace Raiezau
namespace CTracker

open Assoc Memory CUtil CUtil.UtHash

/-! ## Model -/

/-- What `getopt_long` returns, with `optarg` where the option has an argument. -/
inductive Opt
  | help
  | version
  | conf (optarg : CString)
  | port (optarg : CString)
  | daemon
  | unknown
  deriving DecidableEq

/-- What the program is started in: the files there are, as `libyaml` reads them, and the memory `malloc` finds. -/
structure World where
  files : CString → Option (List YamlEvent)
  malloc : UtHash CString → Addr
  malloc_free : ∀ s : UtHash CString, (∃ a, s.heap a = none) → s.heap (malloc s) = none

def optionPortDefault : Nat := 8000
def optionConfPathDefault : CString := "./config.yaml".toList
def optionDaemonizeDefault : Bool := false

namespace World

variable (w : World)

/-- `access(path, F_OK) == 0`. -/
def access (path : CString) : Bool := (w.files path).isSome

/-- `SET_OPT`. -/
def setOpt (options : UtHash CString) (field value : CString) : Option (UtHash CString) :=
  (htAddEntry HashJen.hash options (w.malloc options) field value).map Prod.snd

/-- `parse_options`: the table, or the exit status. -/
def parseOptions : List Opt → UtHash CString → Option (Except Nat (UtHash CString))
  | [], options => some (.ok options)
  | .help :: _, _ => some (.error 0)
  | .version :: _, _ => some (.error 0)
  | .conf optarg :: rest, options =>
      if w.access optarg then do
        let options ← w.setOpt options "conf".toList optarg
        parseOptions rest options
      else some (.error 1)
  | .port optarg :: rest, options => do
      let options ← w.setOpt options "port".toList optarg
      parseOptions rest options
  | .daemon :: rest, options => do
      let options ← w.setOpt options "daemonize".toList "1".toList
      parseOptions rest options
  | .unknown :: _, _ => some (.error 1)

end World

def optionGetConfigFilePath (options : UtHash CString) : Option CString :=
  (htGetEntry HashJen.hash options "conf".toList).map fun path => path.getD optionConfPathDefault

def optionDaemonize (options : UtHash CString) : Option Bool :=
  (htGetEntry HashJen.hash options "daemonize".toList).map fun daemonize =>
    (daemonize.map fun v => decide (atoi v ≠ 0)).getD optionDaemonizeDefault

def optionGetPort (options : UtHash CString) : Option Nat :=
  (htGetEntry HashJen.hash options "port".toList).map fun port =>
    (port.map fun v => toUInt16 (atoi v)).getD optionPortDefault

namespace World

variable (w : World)

def loadOptionFromConfig (options : UtHash CString) (key : CString) (value : YamlWrap) : Option (UtHash CString) := do
  if ← htHasEntry HashJen.hash options key then some options
  else
    match value with
    | .scalar content => w.setOpt options key content
    | _ => some options

def loadConfigFile (options : UtHash CString) : Option (UtHash CString) := do
  let path ← optionGetConfigFilePath options
  match w.files path with
  | none => some options
  | some events => do
      let (ret, yw) ← yaml2ParseFile events
      if ret < 0 then some options
      else
        match yw with
        -- `yw` was never set.
        | none => none
        | some (.mapping entries) => entries.foldlM (fun options e => w.loadOptionFromConfig options e.1 e.2) options
        | some _ => some options

/-- The start of `main`: whether it goes to the background and the port, or the exit status. -/
def startup (opts : List Opt) : Option (Except Nat (Bool × Nat)) := do
  match ← w.parseOptions opts UtHash.htCreate with
  | .error status => some (.error status)
  | .ok options => do
      let options ← w.loadConfigFile options
      let daemonize ← optionDaemonize options
      let port ← optionGetPort options
      some (.ok (daemonize, port))

end World

/-! ## What the options say -/

/-- The field an option sets, and its value. -/
def Opt.setting : Opt → Table CString CString
  | .conf optarg => [("conf".toList, optarg)]
  | .port optarg => [("port".toList, optarg)]
  | .daemon => [("daemonize".toList, "1".toList)]
  | _ => []

/-- What the options set, in the order given. -/
def settings (opts : List Opt) : Table CString CString := opts.flatMap Opt.setting

/-- The exit status, for an option that ends the program. -/
def Opt.status (w : World) : Opt → Option Nat
  | .help => some 0
  | .version => some 0
  | .conf optarg => if w.access optarg then none else some 1
  | .unknown => some 1
  | _ => none

/-- The scalars of a mapping. -/
def scalars (entries : List (CString × YamlWrap)) : Table CString CString :=
  entries.filterMap fun e =>
    match e.2 with
    | .scalar content => some (e.1, content)
    | _ => none

/-- The path of the configuration file: that of the last `-c`. -/
def confPath (opts : List Opt) : CString :=
  (Table.lookup (settings opts).reverse "conf".toList).getD optionConfPathDefault

/-- The entries of the file at a path.  A file that `yaml2_parse_file` does not get through, or that has no document,
brings the program down. -/
def World.fileEntries (w : World) (path : CString) : Option (List (CString × YamlWrap)) :=
  match w.files path with
  | none => some []
  | some events =>
      match yaml2ParseFile events with
      | none => none
      | some (ret, yw) =>
          if ret < 0 then some []
          else
            match yw with
            | none => none
            | some (.mapping entries) => some entries
            | some _ => some []

def World.fileSettings (w : World) (path : CString) : Option (Table CString CString) :=
  (w.fileEntries path).map scalars

/-! ## The table of the options -/

variable {w : World} {options : UtHash CString} {entries : Table CString CString} {field value path : CString}
  {opts : List Opt} {file : Table CString CString}

/-- The options in memory; as long as there are at most nine, the last one given is found. -/
def Settings (options : UtHash CString) (entries : Table CString CString) : Prop :=
  Represents HashJen.hash options entries ∧ (entries.length ≤ 9 → RepresentsFew HashJen.hash options entries)

theorem settings_create : Settings UtHash.htCreate [] :=
  ⟨represents_create, fun _ => ⟨[], _, _, holds_create, tabled_nil 0, few_nil 0⟩⟩

theorem Settings.setOpt_spec (h : Settings options entries) (w : World) (field value : CString) :
    ∃ options', w.setOpt options field value = some options' ∧ Settings options' (entries.add field value) := by
  obtain ⟨hrep, hfew⟩ := h
  have hfree := w.malloc_free options hrep.exists_free
  obtain ⟨l, hholds⟩ := hrep
  obtain ⟨s', hadd, h'⟩ := hholds.add (not_mem_of_heap hholds hfree) field value
  refine ⟨s', by rw [World.setOpt, hadd]; rfl, ⟨_, h'⟩, fun hlen => ?_⟩
  rw [Table.add, List.length_append, List.length_singleton] at hlen
  obtain ⟨l₂, t, chain, hholds₂, ht, hfew₂⟩ := hfew (by omega)
  obtain ⟨s₂, t₂, chain₂, hadd₂, h₂, ht₂, hfew₂'⟩ :=
    hholds₂.add_few ht hfew₂ (by rw [hholds₂.stored.length_eq]; omega) (not_mem_of_heap hholds₂ hfree) field value
  obtain ⟨-, rfl⟩ := Prod.mk.inj (Option.some.inj (hadd.symm.trans hadd₂))
  exact ⟨_, t₂, chain₂, h₂, ht₂, hfew₂'⟩

theorem Settings.htGetEntry_eq (h : Settings options entries) (hlen : entries.length ≤ 9) (field : CString) :
    htGetEntry HashJen.hash options field = some (Table.lookup entries.reverse field) := by
  obtain ⟨l, t, chain, hholds, ht, hfew⟩ := h.2 hlen
  obtain ⟨r, found, hr, hfound, hfinds⟩ := hholds.exists_foundLast ht hfew field
  rw [hholds.htGetEntry_eq hr hfound, hfinds.lookup_eq]

/-- The options up to the first one that ends the program. -/
theorem Settings.parseOptions_spec (h : Settings options entries) (w : World) (opts : List Opt) :
    (∀ status, opts.findSome? (Opt.status w) = some status → w.parseOptions opts options = some (.error status)) ∧
      (opts.findSome? (Opt.status w) = none → ∃ options', w.parseOptions opts options = some (.ok options') ∧
        Settings options' (entries ++ settings opts)) := by
  induction opts generalizing options entries with
  | nil =>
      refine ⟨fun status hs => absurd hs (Option.some_ne_none status).symm, fun _ => ⟨options, rfl, ?_⟩⟩
      rwa [settings, List.flatMap_nil, List.append_nil]
  | cons o opts ih =>
      -- An option that sets a field and lets the loop go on.
      have hset : ∀ {field value}, o.setting = [(field, value)] → o.status w = none →
          w.parseOptions (o :: opts) options = (w.setOpt options field value).bind (w.parseOptions opts) →
          (∀ status, (o :: opts).findSome? (Opt.status w) = some status →
            w.parseOptions (o :: opts) options = some (.error status)) ∧
          ((o :: opts).findSome? (Opt.status w) = none →
            ∃ options', w.parseOptions (o :: opts) options = some (.ok options') ∧
              Settings options' (entries ++ settings (o :: opts))) := by
        intro field value hsetting hgo hparse
        obtain ⟨options₁, hopt, h₁⟩ := h.setOpt_spec w field value
        rw [hparse, hopt, Option.bind_some, List.findSome?_cons, hgo]
        have hcut : entries ++ settings (o :: opts) = entries.add field value ++ settings opts := by
          rw [settings, List.flatMap_cons, hsetting, Table.add, List.append_assoc]
          rfl
        rw [hcut]
        exact ih h₁
      have hstop : ∀ {status}, o.status w = some status → w.parseOptions (o :: opts) options = some (.error status) →
          (∀ status, (o :: opts).findSome? (Opt.status w) = some status →
            w.parseOptions (o :: opts) options = some (.error status)) ∧
          ((o :: opts).findSome? (Opt.status w) = none →
            ∃ options', w.parseOptions (o :: opts) options = some (.ok options') ∧
              Settings options' (entries ++ settings (o :: opts))) := by
        intro status hstop hparse
        rw [hparse, List.findSome?_cons, hstop]
        exact ⟨fun status' hs => by rw [Option.some.inj hs], fun hnone => absurd hnone (Option.some_ne_none _)⟩
      cases o with
      | help => exact hstop rfl rfl
      | version => exact hstop rfl rfl
      | unknown => exact hstop rfl rfl
      | port optarg => exact hset rfl rfl rfl
      | daemon => exact hset rfl rfl rfl
      | conf optarg =>
          by_cases hacc : w.access optarg
          · exact hset rfl (if_pos hacc) (if_pos hacc)
          · exact hstop (if_neg hacc) (if_neg hacc)

/-- A value of the file is added where the field is not set. -/
theorem Settings.loadOptionFromConfig_spec (h : Settings options entries) (w : World) (key : CString)
    (value : YamlWrap) :
    ∃ options', w.loadOptionFromConfig options key value = some options' ∧
      Settings options' ((scalars [(key, value)]).foldl (fun t e => t.insertNew e.1 e.2) entries) := by
  unfold World.loadOptionFromConfig
  rw [h.1.htHasEntry_eq, Option.bind_eq_bind, Option.bind_some]
  cases value with
  | scalar content =>
      cases hkey : entries.lookup key with
      | none =>
          obtain ⟨options', hopt, h'⟩ := h.setOpt_spec w key content
          refine ⟨options', hopt, ?_⟩
          show Settings options' (entries.insertNew key content)
          rwa [Table.insertNew_of_none hkey]
      | some v =>
          refine ⟨options, rfl, ?_⟩
          show Settings options (entries.insertNew key content)
          rwa [Table.insertNew_of_lookup hkey]
  | sequence elements =>
      refine ⟨options, ?_, h⟩
      split <;> rfl
  | mapping entries =>
      refine ⟨options, ?_, h⟩
      split <;> rfl

theorem Settings.loadEntries_spec (h : Settings options entries) (w : World) (es : List (CString × YamlWrap)) :
    ∃ options', es.foldlM (fun options e => w.loadOptionFromConfig options e.1 e.2) options = some options' ∧
      Settings options' ((scalars es).foldl (fun t e => t.insertNew e.1 e.2) entries) := by
  induction es generalizing options entries with
  | nil => exact ⟨options, rfl, h⟩
  | cons e es ih =>
      obtain ⟨options₁, hload, h₁⟩ := h.loadOptionFromConfig_spec w e.1 e.2
      obtain ⟨options₂, hrest, h₂⟩ := ih h₁
      have hcut : scalars (e :: es) = scalars [e] ++ scalars es := List.filterMap_append (l := [e])
      refine ⟨options₂, ?_, ?_⟩
      · rw [List.foldlM_cons, hload, Option.bind_eq_bind, Option.bind_some]
        exact hrest
      · rw [hcut, List.foldl_append]
        exact h₂

theorem loadConfigFile_eq (w : World) (hpath : optionGetConfigFilePath options = some path) :
    w.loadConfigFile options = (w.fileEntries path).bind fun es =>
      es.foldlM (fun options e => w.loadOptionFromConfig options e.1 e.2) options := by
  unfold World.loadConfigFile World.fileEntries
  rw [hpath, Option.bind_eq_bind, Option.bind_some]
  cases w.files path with
  | none => rfl
  | some events =>
      dsimp only
      cases yaml2ParseFile events with
      | none => rfl
      | some r =>
          obtain ⟨ret, yw⟩ := r
          rw [Option.bind_eq_bind, Option.bind_some]
          dsimp only
          by_cases hret : ret < 0
          · rw [if_pos hret, if_pos hret]
            rfl
          · rw [if_neg hret, if_neg hret]
            cases yw with
            | none => rfl
            | some node => cases node <;> rfl

/-- What the file sets is inserted behind the options. -/
theorem Settings.loadConfigFile_spec (h : Settings options entries) (w : World)
    (hpath : optionGetConfigFilePath options = some path) (hfile : w.fileSettings path = some file) :
    ∃ options', w.loadConfigFile options = some options' ∧
      Settings options' (file.foldl (fun t e => t.insertNew e.1 e.2) entries) := by
  obtain ⟨es, hes, rfl⟩ := Option.map_eq_some_iff.1 hfile
  rw [loadConfigFile_eq w hpath, hes, Option.bind_some]
  exact h.loadEntries_spec w es

/-! ## The start -/

/-- The value of a field: the last one given, or else the first one in the file. -/
def valueOf (opts : List Opt) (file : Table CString CString) (field : CString) : Option CString :=
  (Table.lookup (settings opts).reverse field).or (file.lookup field)

/-- What `main` goes on with. -/
def configured (opts : List Opt) (file : Table CString CString) : Bool × Nat :=
  (((valueOf opts file "daemonize".toList).map fun v => decide (atoi v ≠ 0)).getD optionDaemonizeDefault,
    ((valueOf opts file "port".toList).map fun v => toUInt16 (atoi v)).getD optionPortDefault)

/-- With at most nine settings in all, the last of several options counts, an option counts before the file, and the
first of several values in the file.  A file that is not read through takes the program down, unless an option has
ended it before. -/
theorem startup_eq (w : World) (opts : List Opt)
    (hlen : opts.findSome? (Opt.status w) = none →
      (settings opts).length + ((w.fileSettings (confPath opts)).getD []).length ≤ 9) :
    w.startup opts = match opts.findSome? (Opt.status w) with
      | some status => some (.error status)
      | none => (w.fileSettings (confPath opts)).map fun file => .ok (configured opts file) := by
  obtain ⟨hstop, hgo⟩ := settings_create.parseOptions_spec w opts
  unfold World.startup
  cases hstatus : opts.findSome? (Opt.status w) with
  | some status => rw [hstop status hstatus]; rfl
  | none =>
      obtain ⟨options, hparse, h⟩ := hgo hstatus
      have hlen := hlen hstatus
      rw [List.nil_append] at h
      have hpath : optionGetConfigFilePath options = some (confPath opts) := by
        rw [optionGetConfigFilePath, h.htGetEntry_eq (by omega)]
        rfl
      rw [hparse, Option.bind_eq_bind, Option.bind_some]
      dsimp only
      cases hfile : w.fileSettings (confPath opts) with
      | none =>
          rw [loadConfigFile_eq w hpath, Option.map_eq_none_iff.1 hfile]
          rfl
      | some file =>
          rw [hfile, Option.getD_some] at hlen
          obtain ⟨options', hload, h'⟩ := h.loadConfigFile_spec w hpath hfile
          have hle := Table.length_foldl_insertNew_le (settings opts) file
          have hget : ∀ field, htGetEntry HashJen.hash options' field = some (valueOf opts file field) := fun field => by
            rw [h'.htGetEntry_eq (by omega), Table.lookup_reverse_foldl_insertNew]
            rfl
          rw [hload, Option.bind_eq_bind, Option.bind_some, optionDaemonize, optionGetPort, hget, hget]
          rfl

/-- There is a world with any files. -/
theorem exists_world (files : CString → Option (List YamlEvent)) : ∃ w : World, w.files = files := by
  classical
  refine ⟨⟨files, fun s => if h : ∃ a, s.heap a = none then h.choose else 0, fun s h => ?_⟩, rfl⟩
  rw [dif_pos h]
  exact h.choose_spec

/-- Two ports on the command line and a third one in the file; and a file with nothing in it. -/
theorem startup_two_ports :
    (∃ w : World, w.startup [.port "9000".toList, .port "9001".toList] = some (.ok (true, 9001))) ∧
      ∃ w : World, w.startup [.daemon] = none := by
  constructor
  · obtain ⟨w, hw⟩ := exists_world fun path =>
      if path = "./config.yaml".toList then
        some (YamlWrap.mapping [("daemonize".toList, .scalar "1".toList), ("port".toList, .scalar "8080".toList)]).document
      else none
    have hfile : w.fileSettings (confPath [.port "9000".toList, .port "9001".toList]) =
        some [("daemonize".toList, "1".toList), ("port".toList, "8080".toList)] := by
      unfold World.fileSettings World.fileEntries
      rw [hw]
      rfl
    have hrun := startup_eq w [.port "9000".toList, .port "9001".toList] fun _ => by
      rw [hfile]
      decide
    rw [hfile] at hrun
    exact ⟨w, hrun⟩
  · obtain ⟨w, hw⟩ := exists_world fun _ => some [.streamStart, .streamEnd]
    have hfile : w.fileSettings (confPath [.daemon]) = none := by
      unfold World.fileSettings World.fileEntries
      rw [hw]
      rfl
    have hrun := startup_eq w [.daemon] fun _ => by
      rw [hfile]
      decide
    rw [hfile] at hrun
    exact ⟨w, hrun⟩

/-- However many ports are given, with nothing else: the last one counts, but the first of ten and the tenth of a
hundred and ten. -/
theorem startup_ports (w : World) (args : List CString) (hfile : w.files optionConfPathDefault = none) :
    w.startup (args.map Opt.port) =
      some (.ok (false, (args[foundIndex args.length]?.map fun v => toUInt16 (atoi v)).getD optionPortDefault)) := by
  suffices hparse : ∀ (args : List CString) {options l entries t chain},
      SameKey HashJen.hash "port".toList options l entries t chain →
      ∃ options' l' t' chain', w.parseOptions (args.map Opt.port) options = some (.ok options') ∧
        SameKey HashJen.hash "port".toList options' l' (entries ++ args.map fun v => ("port".toList, v)) t' chain' by
    obtain ⟨options, l, t, chain, hopts, h⟩ := hparse args sameKey_create
    rw [List.nil_append] at h
    have habsent : ∀ field, field ≠ "port".toList → htGetEntry HashJen.hash options field = some none := by
      intro field hne
      obtain ⟨r, hr, -, hnone⟩ := hashFindStr_spec h.holds field
      obtain rfl : r = none := hnone.2 fun hk => by
        obtain ⟨e, he, rfl⟩ := List.mem_map.1 hk
        obtain ⟨v, -, rfl⟩ := List.mem_map.1 he
        exact hne rfl
      exact h.holds.htGetEntry_eq hr .none
    have hpath : optionGetConfigFilePath options = some optionConfPathDefault := by
      rw [optionGetConfigFilePath, habsent _ (by decide)]
      rfl
    have hload : w.loadConfigFile options = some options := by
      unfold World.loadConfigFile
      rw [hpath, Option.bind_eq_bind, Option.bind_some, hfile]
    unfold World.startup
    rw [hopts, Option.bind_eq_bind, Option.bind_some]
    dsimp only
    rw [hload, Option.bind_eq_bind, Option.bind_some, optionDaemonize, habsent _ (by decide), optionGetPort,
      h.htGetEntry_eq, List.length_map, List.getElem?_map, Option.map_map]
    cases args[foundIndex args.length]? <;> rfl
  intro args
  induction args with
  | nil =>
      intro options l entries t chain h
      exact ⟨options, l, t, chain, rfl, by rwa [List.map_nil, List.append_nil]⟩
  | cons v args ih =>
      intro options l entries t chain h
      have hfree := w.malloc_free options (Represents.exists_free ⟨l, h.holds⟩)
      obtain ⟨options₁, t₁, chain₁, hadd, h₁⟩ := h.add (not_mem_of_heap h.holds hfree) v
      obtain ⟨options', l', t', chain', hparse, h'⟩ := ih h₁
      refine ⟨options', l', t', chain', ?_, ?_⟩
      · rw [List.map_cons, World.parseOptions, World.setOpt, hadd]
        exact hparse
      · rw [Table.add, List.append_assoc] at h'
        exact h'

theorem startup_ten_ports : ∃ w : World,
    w.startup (["1", "2", "3", "4", "5", "6", "7", "8", "9", "10"].map fun n => Opt.port n.toList) = some (.ok (false, 1)) := by
  obtain ⟨w, hw⟩ := exists_world fun _ => none
  have hrun := startup_ports w (["1", "2", "3", "4", "5", "6", "7", "8", "9", "10"].map String.toList) (by rw [hw])
  rw [List.map_map] at hrun
  exact ⟨w, hrun⟩

end CTracker
end Raiezau
