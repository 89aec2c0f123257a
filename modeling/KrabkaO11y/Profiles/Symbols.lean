import KrabkaO11y.Collections.Interning

/-!
The symbol tables of profile blocks (`crates/pprof/src/symbol_db`,
`crates/profiles/src/blockbuilder/record_writer.rs`).

A WAL record carries tables that refer to each other by position, and so does a symbol database.
Interning one into the other and copying a database into another are the same renumbering: every
location resolves afterwards to what it resolved to before, as long as no reference is out of
range. Stacks are paths of a tree that interning only extends.
-/

namespace KrabkaO11y.Profiles

open Collections List Option

/-! ### Tables -/

structure FunctionRec where
  name : Nat
  systemName : Nat
  filename : Nat
  startLine : Int64
deriving DecidableEq, Repr

structure MappingSymbolization where
  hasFunctions : Bool
  hasFilenames : Bool
  hasLineNumbers : Bool
  hasInlineFrames : Bool
deriving DecidableEq, Repr

structure MappingRec where
  memoryStart : Nat
  memoryLimit : Nat
  fileOffset : Nat
  filename : Nat
  buildId : Nat
  symbolization : MappingSymbolization
deriving DecidableEq, Repr

structure LineRec where
  functionId : Nat
  line : Int
deriving DecidableEq, Repr

structure LocationRec where
  address : Nat
  mappingId : Nat
  lines : List LineRec
deriving DecidableEq, Repr

/-- The tables of a WAL record, or of a symbol database. -/
structure Tables where
  strings : List String
  functions : List FunctionRec
  mappings : List MappingRec
  locations : List LocationRec
deriving DecidableEq, Repr

structure ResolvedFunction where
  name : String
  systemName : String
  filename : String
  startLine : Int64
deriving DecidableEq, Repr

structure ResolvedMapping where
  memoryStart : Nat
  memoryLimit : Nat
  fileOffset : Nat
  filename : String
  buildId : String
  symbolization : MappingSymbolization
deriving DecidableEq, Repr

structure ResolvedLine where
  function : ResolvedFunction
  line : Int
deriving DecidableEq, Repr

structure ResolvedLocation where
  address : Nat
  mapping : Option ResolvedMapping
  lines : List ResolvedLine
deriving DecidableEq, Repr

namespace Tables

variable (dropGoTypeParameters : String → String)

variable (tables : Tables)

def string (index : Nat) : String := (tables.strings[index]?).getD ""

def resolveFunction (function : FunctionRec) : ResolvedFunction :=
  { name := dropGoTypeParameters (tables.string function.name)
    systemName := tables.string function.systemName
    filename := tables.string function.filename
    startLine := function.startLine }

def resolveMapping (mapping : MappingRec) : ResolvedMapping :=
  { memoryStart := mapping.memoryStart
    memoryLimit := mapping.memoryLimit
    fileOffset := mapping.fileOffset
    filename := tables.string mapping.filename
    buildId := tables.string mapping.buildId
    symbolization := mapping.symbolization }

def resolveLine (line : LineRec) : Option ResolvedLine :=
  tables.functions[line.functionId]?.map fun function =>
    ⟨tables.resolveFunction dropGoTypeParameters function, line.line⟩

def resolveLocation (location : LocationRec) : ResolvedLocation :=
  { address := location.address
    mapping := tables.mappings[location.mappingId]?.map tables.resolveMapping
    lines := location.lines.filterMap (tables.resolveLine dropGoTypeParameters) }

/-- The location at a position. -/
def resolve (index : Nat) : Option ResolvedLocation :=
  tables.locations[index]?.map (tables.resolveLocation dropGoTypeParameters)

end Tables

/-! ### Renumbering -/

/-- How the block builder looks a reference up, with its fallbacks for one out of range. -/
def remapRef (reference : Nat) (table : List Nat) : Nat :=
  (table[reference]?).getD (if reference = 0 then reference else
    (table[reference - 1]?).getD reference)

/-- How copying a database does. -/
def remapIndex (index : Nat) (remapped : List Nat) : Nat := (remapped[index]?).getD index

/-- Looking up a reference that is in range. -/
def Looks (remap : Nat → List Nat → Nat) : Prop :=
  ∀ reference table place, table[reference]? = some place → remap reference table = place

theorem looks_remapRef : Looks remapRef := fun reference table place h => by
  rw [remapRef, h, getD_some]

theorem looks_remapIndex : Looks remapIndex := fun index table place h => by
  rw [remapIndex, h, getD_some]

def FunctionRec.remap (remap : Nat → List Nat → Nat) (strings : List Nat)
    (function : FunctionRec) : FunctionRec :=
  { function with
    name := remap function.name strings
    systemName := remap function.systemName strings
    filename := remap function.filename strings }

def MappingRec.remap (remap : Nat → List Nat → Nat) (strings : List Nat) (mapping : MappingRec) :
    MappingRec :=
  { mapping with
    filename := remap mapping.filename strings
    buildId := remap mapping.buildId strings }

def LocationRec.remap (remap : Nat → List Nat → Nat) (mappings functions : List Nat)
    (location : LocationRec) : LocationRec :=
  { location with
    mappingId := remap location.mappingId mappings
    lines := location.lines.map fun line =>
      { line with functionId := remap line.functionId functions } }

/-- Tables with those of a source, and the places of the source's locations. -/
def internTables (remap : Nat → List Nat → Nat) (dest source : Tables) : Tables × List Nat :=
  let strings := internAll source.strings dest.strings
  let mappings := internAll (source.mappings.map (MappingRec.remap remap strings.1)) dest.mappings
  let functions :=
    internAll (source.functions.map (FunctionRec.remap remap strings.1)) dest.functions
  let locations := internAll
    (source.locations.map (LocationRec.remap remap mappings.1 functions.1)) dest.locations
  (⟨strings.2, functions.2, mappings.2, locations.2⟩, locations.1)

/-- No reference is out of range. -/
structure Closed (tables : Tables) : Prop where
  functions : ∀ function ∈ tables.functions, function.name < tables.strings.length ∧
    function.systemName < tables.strings.length ∧ function.filename < tables.strings.length
  mappings : ∀ mapping ∈ tables.mappings,
    mapping.filename < tables.strings.length ∧ mapping.buildId < tables.strings.length
  locations : ∀ location ∈ tables.locations, location.mappingId < tables.mappings.length ∧
    ∀ line ∈ location.lines, line.functionId < tables.functions.length

/-- Every table is a longer one of the other's. -/
structure Extends (tables tables' : Tables) : Prop where
  strings : tables.strings <+: tables'.strings
  functions : tables.functions <+: tables'.functions
  mappings : tables.mappings <+: tables'.mappings
  locations : tables.locations <+: tables'.locations

/-- A renumbering of tables: what is at a place of one is at the new place in the other, with
its references renumbered. -/
structure Renumbers (tables tables' : Tables) (string function mapping location : Nat → Nat) :
    Prop where
  strings : ∀ {i value}, tables.strings[i]? = some value →
    tables'.strings[string i]? = some value
  functions : ∀ {i value}, tables.functions[i]? = some value →
    tables'.functions[function i]? = some { value with
      name := string value.name
      systemName := string value.systemName
      filename := string value.filename }
  mappings : ∀ {i value}, tables.mappings[i]? = some value →
    tables'.mappings[mapping i]? = some { value with
      filename := string value.filename
      buildId := string value.buildId }
  locations : ∀ {i value}, tables.locations[i]? = some value →
    tables'.locations[location i]? = some { value with
      mappingId := mapping value.mappingId
      lines := value.lines.map fun line => { line with functionId := function line.functionId } }

theorem Extends.renumbers {tables tables' : Tables} (h : Extends tables tables') :
    Renumbers tables tables' id id id id where
  strings := getElem?_extend h.strings
  functions := getElem?_extend h.functions
  mappings := getElem?_extend h.mappings
  locations := fun hval => by
    simpa using getElem?_extend h.locations hval

section Resolve

variable {drop : String → String} {tables tables' : Tables}
  {string function mapping location : Nat → Nat}

variable {i : Nat}

section

variable (h : Renumbers tables tables' string function mapping location)
include h

theorem Renumbers.string_eq
    (hi : i < tables.strings.length) : tables'.string (string i) = tables.string i := by
  have hval := getElem?_eq_getElem hi
  rw [Tables.string, Tables.string, h.strings hval, hval]

theorem Renumbers.resolveLine_eq
    (closed : Closed tables) {line : LineRec}
    (hline : line.functionId < tables.functions.length) :
    tables'.resolveLine drop { line with functionId := function line.functionId } =
      tables.resolveLine drop line := by
  have hval := getElem?_eq_getElem hline
  obtain ⟨hnm, hsys, hfi⟩ := closed.functions _ (getElem_mem hline)
  rw [Tables.resolveLine, Tables.resolveLine, h.functions hval, hval, map_some,
    map_some, Tables.resolveFunction, Tables.resolveFunction, h.string_eq hnm,
    h.string_eq hsys, h.string_eq hfi]

theorem Renumbers.resolveMapping_eq
    (closed : Closed tables) (hi : i < tables.mappings.length) :
    tables'.mappings[mapping i]?.map tables'.resolveMapping =
      tables.mappings[i]?.map tables.resolveMapping := by
  have hval := getElem?_eq_getElem hi
  obtain ⟨hfi, hbd⟩ := closed.mappings _ (getElem_mem hi)
  rw [h.mappings hval, hval, map_some, map_some, Tables.resolveMapping,
    Tables.resolveMapping, h.string_eq hfi, h.string_eq hbd]

/-- A location resolves at its new place to what it resolved to. -/
theorem Renumbers.resolve_eq
    (closed : Closed tables) {resolved : ResolvedLocation}
    (hrsd : tables.resolve drop i = some resolved) :
    tables'.resolve drop (location i) = some resolved := by
  obtain ⟨value, hval, rfl⟩ := map_eq_some_iff.mp hrsd
  obtain ⟨hmap, hln⟩ := closed.locations value (mem_of_getElem? hval)
  rw [Tables.resolve, h.locations hval, map_some, Tables.resolveLocation,
    Tables.resolveLocation]
  congr 2
  · exact h.resolveMapping_eq closed hmap
  · rw [filterMap_map]
    exact filterMap_congr fun line hli => h.resolveLine_eq closed (hln line hli)

end

theorem Extends.resolve_eq (h : Extends tables tables') (closed : Closed tables)
    {resolved : ResolvedLocation} (hrsd : tables.resolve drop i = some resolved) :
    tables'.resolve drop i = some resolved :=
  h.renumbers.resolve_eq closed hrsd

end Resolve

section Interned

variable {remap : Nat → List Nat → Nat} {dest source : Tables}

theorem extends_internTables : Extends dest (internTables remap dest source).1 :=
  ⟨prefix_internAll, prefix_internAll, prefix_internAll, prefix_internAll⟩

section Lookup

variable {α : Type} [DecidableEq α] {xs table : List α}

theorem Looks.getElem?_internAll (hremap : Looks remap) {i : Nat} {x : α} (hx : xs[i]? = some x) :
    (internAll xs table).2[remap i (internAll xs table).1]? = some x := by
  obtain ⟨place, hpl, hat⟩ := @Collections.getElem?_internAll α _ xs x table i hx
  rw [hremap i _ place hpl, hat]

theorem Looks.lt_length (hremap : Looks remap) {i : Nat} (hi : i < xs.length) :
    remap i (internAll xs table).1 < (internAll xs table).2.length :=
  (List.getElem?_eq_some_iff.mp
    (hremap.getElem?_internAll (getElem?_eq_getElem hi))).1

end Lookup

/-- Interning renumbers the source. -/
theorem renumbers_internTables (hremap : Looks remap) :
    ∃ string function mapping, Renumbers source (internTables remap dest source).1
      string function mapping (fun i => remap i (internTables remap dest source).2) := by
  let strings := internAll source.strings dest.strings
  let mappings := internAll (source.mappings.map (MappingRec.remap remap strings.1)) dest.mappings
  let functions :=
    internAll (source.functions.map (FunctionRec.remap remap strings.1)) dest.functions
  refine ⟨(remap · strings.1), (remap · functions.1), (remap · mappings.1),
    fun hval => hremap.getElem?_internAll hval, fun {i value} hval => ?_, fun {i value} hval => ?_,
    fun {i value} hval => ?_⟩
  · refine hremap.getElem?_internAll (x := value.remap remap strings.1) ?_
    rw [getElem?_map, hval, map_some]
  · refine hremap.getElem?_internAll (x := value.remap remap strings.1) ?_
    rw [getElem?_map, hval, map_some]
  · refine hremap.getElem?_internAll (x := value.remap remap mappings.1 functions.1) ?_
    rw [getElem?_map, hval, map_some]

/-- References that are in range stay in range. -/
theorem closed_internTables (hremap : Looks remap) (hdest : Closed dest) (hsrc : Closed source) :
    Closed (internTables remap dest source).1 := by
  have hext : Extends dest (internTables remap dest source).1 := extends_internTables
  have hst := hext.strings.length_le
  have hma := hext.mappings.length_le
  have hfun := hext.functions.length_le
  refine ⟨fun function hfu => ?_, fun mapping hmap => ?_, fun location hloc => ?_⟩
  · rcases mem_internAll hfu with hold | hnew
    · obtain ⟨hnm, hsys, hfi⟩ := hdest.functions function hold
      exact ⟨hnm.trans_le hst, hsys.trans_le hst, hfi.trans_le hst⟩
    · obtain ⟨value, hval, rfl⟩ := mem_map.mp hnew
      obtain ⟨hnm, hsys, hfi⟩ := hsrc.functions value hval
      exact ⟨hremap.lt_length hnm, hremap.lt_length hsys, hremap.lt_length hfi⟩
  · rcases mem_internAll hmap with hold | hnew
    · obtain ⟨hfi, hbd⟩ := hdest.mappings mapping hold
      exact ⟨hfi.trans_le hst, hbd.trans_le hst⟩
    · obtain ⟨value, hval, rfl⟩ := mem_map.mp hnew
      obtain ⟨hfi, hbd⟩ := hsrc.mappings value hval
      exact ⟨hremap.lt_length hfi, hremap.lt_length hbd⟩
  · rcases mem_internAll hloc with hold | hnew
    · obtain ⟨hmap, hln⟩ := hdest.locations location hold
      exact ⟨hmap.trans_le hma, fun line hli => (hln line hli).trans_le hfun⟩
    · obtain ⟨value, hval, rfl⟩ := mem_map.mp hnew
      obtain ⟨hmap, hln⟩ := hsrc.locations value hval
      refine ⟨hremap.lt_length (by rwa [length_map]), fun line hli => ?_⟩
      obtain ⟨old, hold, rfl⟩ := mem_map.mp hli
      exact hremap.lt_length (by
        rw [length_map]
        exact hln old hold)

end Interned

/-! ### Stacks -/

/-- A node of the tree of stacks: the node of the caller, if there is one, and a location. -/
structure TreeNode where
  parent : Option Nat
  locationRef : Nat
deriving DecidableEq, Repr

/-- The path below a node through some locations, caller first, and its last node. -/
def internPath : List TreeNode → Option Nat → List Nat → List TreeNode × Option Nat
  | nodes, parent, [] => (nodes, parent)
  | nodes, parent, location :: rest =>
    let child := intern ⟨parent, location⟩ nodes
    internPath child.2 (some child.1) rest

/-- The locations from a node up to the root. -/
def stackRefs (nodes : List TreeNode) : Nat → Option Nat → List Nat
  | 0, _ => []
  | _, none => []
  | fuel + 1, some current =>
    match nodes[current]? with
    | none => []
    | some node => node.locationRef :: stackRefs nodes fuel node.parent

/-- The locations from a node up to the root, with every caller before its callees. -/
inductive Path (nodes : List TreeNode) : Option Nat → List Nat → Prop where
  | root : Path nodes none []
  | node {current : Nat} {node : TreeNode} {refs : List Nat} :
      nodes[current]? = some node → (∀ parent ∈ node.parent, parent < current) →
        Path nodes node.parent refs → Path nodes (some current) (node.locationRef :: refs)

/-- Every caller comes before its callees. -/
def Grown (nodes : List TreeNode) : Prop :=
  ∀ (current : Nat) (node : TreeNode), nodes[current]? = some node →
    ∀ parent ∈ node.parent, parent < current

section Stacks

variable {nodes nodes' : List TreeNode}

variable {current : Option Nat} {refs : List Nat}

theorem Path.mono (initial : nodes <+: nodes') (h : Path nodes current refs) :
    Path nodes' current refs := by
  induction h with
  | root => exact .root
  | node hno hpar _ ih => exact .node (getElem?_extend initial hno) hpar ih

theorem Path.map (f : Nat → Nat) (h : Path nodes current refs) :
    Path (nodes.map fun node => { node with locationRef := f node.locationRef }) current
      (refs.map f) := by
  induction h with
  | root => exact .root
  | @node current node refs hno hpar _ ih =>
    have hmpd : (nodes.map fun node =>
        { node with locationRef := f node.locationRef })[current]? =
          some { node with locationRef := f node.locationRef } := by
      rw [getElem?_map, hno, map_some]
    exact .node hmpd hpar ih

/-- A path is no longer than the place of its node allows. -/
theorem Path.length_le (h : Path nodes current refs) :
    ∀ i ∈ current, refs.length ≤ i + 1 := by
  induction h with
  | root => exact nofun
  | @node current node refs hno hpar hpa ih =>
    intro i hi
    cases hi
    rw [length_cons]
    cases hc : node.parent with
    | none =>
      rw [hc] at hpa
      cases hpa
      exact Nat.le_add_left _ _
    | some parent =>
      have hlt := hpar parent hc
      have hle := ih parent hc
      omega

/-- As many rounds as the path is long walk all of it. -/
theorem Path.stackRefs_eq (h : Path nodes current refs) :
    ∀ {fuel : Nat}, refs.length ≤ fuel → stackRefs nodes fuel current = refs := by
  induction h with
  | root =>
    intro fuel _
    cases fuel <;> rfl
  | @node current node refs hno _ _ ih =>
    intro fuel hfu
    rw [length_cons] at hfu
    obtain ⟨rounds, rfl⟩ : ∃ rounds, fuel = rounds + 1 := ⟨fuel - 1, by omega⟩
    rw [stackRefs, hno]
    simp only [ih (Nat.le_of_succ_le_succ hfu)]

theorem Path.walk (h : Path nodes current refs) :
    stackRefs nodes nodes.length current = refs := by
  refine h.stackRefs_eq ?_
  cases h with
  | root => exact Nat.zero_le _
  | @node current node refs hno hpar hpa =>
    have hle := (Path.node hno hpar hpa).length_le current rfl
    have hlt := (List.getElem?_eq_some_iff.mp hno).1
    omega

theorem Grown.intern (h : Grown nodes) {node : TreeNode}
    (hpar : ∀ parent ∈ node.parent, parent < nodes.length) :
    Grown (Collections.intern node nodes).2 := by
  intro current value hval parent hmem
  rw [Collections.intern] at hval
  split at hval
  · exact h current value hval parent hmem
  · rcases Nat.lt_or_ge current nodes.length with hlt | hge
    · rw [getElem?_append_left hlt] at hval
      exact h current value hval parent hmem
    · rw [getElem?_append_right hge] at hval
      obtain rfl := mem_singleton.mp (mem_of_getElem? hval)
      exact (hpar parent hmem).trans_le hge

/-- Interning a path below another gives both in one, and keeps every node. -/
theorem internPath_spec : ∀ {nodes : List TreeNode} {parent : Option Nat}
    {callers : List Nat}, Grown nodes → Path nodes parent callers →
      nodes <+: (internPath nodes parent refs).1 ∧ Grown (internPath nodes parent refs).1 ∧
        Path (internPath nodes parent refs).1 (internPath nodes parent refs).2
          (refs.reverse ++ callers) := by
  induction refs with
  | nil => exact fun hgw hpat => ⟨prefix_rfl, hgw, hpat⟩
  | cons location rest ih =>
    intro nodes parent callers hgw hpat
    rw [internPath]
    have hbl : ∀ caller ∈ (⟨parent, location⟩ : TreeNode).parent, caller < nodes.length := by
      intro caller hc
      obtain rfl : parent = some caller := hc
      cases hpat with
      | node hno _ _ => exact (List.getElem?_eq_some_iff.mp hno).1
    have hgw' := hgw.intern hbl
    have hno := getElem?_intern (⟨parent, location⟩ : TreeNode) nodes
    have hin := prefix_intern (⟨parent, location⟩ : TreeNode) nodes
    have hch := Path.node hno (hgw' _ _ hno) (hpat.mono hin)
    obtain ⟨hmo, hgr, hpa⟩ := ih hgw' hch
    refine ⟨hin.trans hmo, hgr, ?_⟩
    rw [reverse_cons, append_assoc, singleton_append]
    exact hpa

end Stacks

/-! ### Symbol databases -/

/-- Tables, and a tree of stacks for each partition. -/
structure SymbolDb where
  tables : Tables
  partitions : Nat → List TreeNode

/-- A new database has the empty string. -/
def SymbolDb.new : SymbolDb := ⟨⟨[""], [], [], []⟩, fun _ => []⟩

/-- The stack of no location has no node. -/
def SymbolDb.internStacktrace (db : SymbolDb) (partition : Nat) (locationRefs : List Nat) :
    SymbolDb × Option Nat :=
  let path := internPath (db.partitions partition) none locationRefs.reverse
  ({ db with partitions := Function.update db.partitions partition path.1 }, path.2)

def SymbolDb.resolveLocations (drop : String → String) (db : SymbolDb) (partition : Nat)
    (stacktraceId : Option Nat) : List ResolvedLocation :=
  (stackRefs (db.partitions partition) (db.partitions partition).length stacktraceId).filterMap
    (db.tables.resolve drop)

/-- Copies a partition of another database into an empty one. -/
def SymbolDb.copyPartitionFrom (db source : SymbolDb) (sourcePartition destPartition : Nat) :
    Except String SymbolDb :=
  if source.partitions sourcePartition = [] then .ok db
  else if db.partitions destPartition ≠ [] then
    .error s!"destination symbol partition {destPartition} is not empty"
  else
    let tables := internTables remapIndex db.tables source.tables
    .ok ⟨tables.1, Function.update db.partitions destPartition
      ((source.partitions sourcePartition).map fun node =>
        { node with locationRef := remapIndex node.locationRef tables.2 })⟩

end KrabkaO11y.Profiles
