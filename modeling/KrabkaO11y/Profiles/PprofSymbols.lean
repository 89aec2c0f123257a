import KrabkaO11y.Collections.Fallible
import KrabkaO11y.Profiles.Symbols

/-!
The symbols of an uploaded pprof (`crates/profiles/src/distributor/extract_symbols.rs`,
`id_normalization.rs`).

A pprof refers by id, the WAL record by position. Extraction refuses a reference that does not
exist, and turns the others into positions that name the same function, mapping or location. A
location without a mapping is given position 0, which is the first mapping.
-/

namespace KrabkaO11y.Profiles

open Collections Concurrent List

/-! ### The decoded pprof -/

structure PprofFunction where
  id : Nat
  name : Int64
  systemName : Int64
  filename : Int64
  startLine : Int64
deriving DecidableEq, Repr

structure PprofMapping where
  id : Nat
  memoryStart : Nat
  memoryLimit : Nat
  fileOffset : Nat
  filename : Int64
  buildId : Int64
  symbolization : MappingSymbolization
deriving DecidableEq, Repr

structure PprofLine where
  functionId : Nat
  line : Int64
deriving DecidableEq, Repr

structure PprofLocation where
  id : Nat
  mappingId : Nat
  address : Nat
  lines : List PprofLine
deriving DecidableEq, Repr

structure PprofLabel where
  key : Int64
  str : Int64
  numUnit : Int64
deriving DecidableEq, Repr

structure PprofSample where
  locationId : List Nat
  value : List Int64
  label : List PprofLabel
deriving DecidableEq, Repr

structure PprofValueType where
  type : Int64
  unit : Int64
deriving DecidableEq, Repr

structure PprofProfile where
  stringTable : List String
  sampleType : List PprofValueType
  periodType : Option PprofValueType
  function : List PprofFunction
  mapping : List PprofMapping
  location : List PprofLocation
  sample : List PprofSample
  comment : List Int64
  dropFrames : Int64
  keepFrames : Int64
  defaultSampleType : Int64
  timeNanos : Int64
deriving DecidableEq, Repr

namespace PprofProfile

def string (profile : PprofProfile) (index : Int64) : Option String :=
  if 0 ≤ index.toInt then profile.stringTable[index.toInt.toNat]? else none

/-- The string references of a profile, in the order they are checked. -/
def stringRefs (profile : PprofProfile) : List (Int64 × String) :=
  ((profile.sampleType ++ profile.periodType.toList).flatMap fun kind =>
    [(kind.type, "sample type type"), (kind.unit, "sample type unit")]) ++
  (profile.function.flatMap fun function =>
    [(function.name, "function name"), (function.systemName, "function system name"),
      (function.filename, "function file name")]) ++
  (profile.mapping.flatMap fun mapping =>
    [(mapping.filename, "mapping file name"), (mapping.buildId, "mapping build ID")]) ++
  ((profile.sample.flatMap PprofSample.label).flatMap fun label =>
    [(label.key, "sample label key"), (label.str, "sample label value"),
      (label.numUnit, "sample label unit")]) ++
  (profile.comment.map fun comment => (comment, "comment")) ++
  [(profile.dropFrames, "drop frames"), (profile.keepFrames, "keep frames"),
    (profile.defaultSampleType, "default sample type")]

def validateStrings (profile : PprofProfile) : Except String Unit :=
  if profile.stringTable.head? ≠ some "" then .error "string 0 should be empty string"
  else
    match profile.stringRefs.find? fun ref => (profile.string ref.1).isNone with
    | some ref => .error (ref.2 ++ " string index out of range")
    | none => .ok ()

end PprofProfile

/-! ### Extraction -/

/-- The position of an id; of an id that is used twice the last. -/
def idRef (ids : List Nat) (id : Nat) : Option Nat :=
  (ids.zipIdx.reverse.find? fun entry => entry.1 = id).map Prod.snd

def normalizeRequiredPprofId (id : Nat) (ids : List Nat) (field : String) : Except String Nat :=
  match idRef ids id with
  | some reference => .ok reference
  | none => .error (field ++ " references missing id " ++ toString id)

def normalizeOptionalPprofId (id : Nat) (ids : List Nat) (field : String) : Except String Nat :=
  if id = 0 then .ok 0 else normalizeRequiredPprofId id ids field

def u32FromI64 (value : Int64) (field : String) : Except String Nat :=
  if 0 ≤ value.toInt ∧ value.toInt < 2 ^ 32 then .ok value.toInt.toNat
  else .error (field ++ " does not fit u32: out of range integral type conversion attempted")

def walFunction (function : PprofFunction) : Except String FunctionRec := do
  let name ← u32FromI64 function.name "function.name"
  let systemName ← u32FromI64 function.systemName "function.system_name"
  let filename ← u32FromI64 function.filename "function.filename"
  return ⟨name, systemName, filename, function.startLine⟩

def walMapping (mapping : PprofMapping) : Except String MappingRec := do
  let filename ← u32FromI64 mapping.filename "mapping.filename"
  let buildId ← u32FromI64 mapping.buildId "mapping.build_id"
  return ⟨mapping.memoryStart, mapping.memoryLimit, mapping.fileOffset, filename, buildId,
    mapping.symbolization⟩

def walLine (functions : List Nat) (line : PprofLine) : Except String LineRec := do
  let functionId ← normalizeRequiredPprofId line.functionId functions "line.function_id"
  return ⟨functionId, line.line.toInt⟩

def walLocation (mappings functions : List Nat) (location : PprofLocation) :
    Except String LocationRec := do
  let mappingId ← normalizeOptionalPprofId location.mappingId mappings "location.mapping_id"
  let lines ← location.lines.mapM (walLine functions)
  return ⟨location.address, mappingId, lines⟩

/-- The tables of the WAL records of an upload. -/
def extractSymbols (profile : PprofProfile) : Except String Tables := do
  profile.validateStrings
  let functions ← profile.function.mapM walFunction
  let locations ← profile.location.mapM
    (walLocation (profile.mapping.map PprofMapping.id) (profile.function.map PprofFunction.id))
  let mappings ← profile.mapping.mapM walMapping
  return ⟨profile.stringTable, functions, mappings, locations⟩

/-! ### What extraction keeps -/

theorem getElem?_of_idRef {ids : List Nat} {id place : Nat} (h : idRef ids id = some place) :
    ids[place]? = some id := by
  obtain ⟨entry, he, rfl⟩ := Option.map_eq_some_iff.mp h
  have hid : entry.1 = id := by simpa using find?_some he
  have hmem := mem_reverse.mp (mem_of_find?_eq_some he)
  rw [← hid]
  exact mem_zipIdx_iff_getElem?.mp hmem

theorem normalizeRequiredPprofId_ok {id : Nat} {ids : List Nat} {field : String} {place : Nat}
    (h : normalizeRequiredPprofId id ids field = .ok place) : ids[place]? = some id := by
  rw [normalizeRequiredPprofId] at h
  split at h <;> cases h
  rename_i hpl
  exact getElem?_of_idRef hpl

theorem u32FromI64_ok {value : Int64} {field : String} {index : Nat}
    (h : u32FromI64 value field = .ok index) :
    0 ≤ value.toInt ∧ index = value.toInt.toNat := by
  rw [u32FromI64] at h
  split at h
  · rename_i hr
    exact ⟨hr.1, (Except.ok.inj h).symm⟩
  · cases h

variable {function : PprofFunction}

theorem walFunction_ok {value : FunctionRec}
    (h : walFunction function = .ok value) :
    (0 ≤ function.name.toInt ∧ value.name = function.name.toInt.toNat) ∧
      (0 ≤ function.systemName.toInt ∧ value.systemName = function.systemName.toInt.toNat) ∧
      (0 ≤ function.filename.toInt ∧ value.filename = function.filename.toInt.toNat) ∧
      value.startLine = function.startLine := by
  obtain ⟨name, hnm, h⟩ := except_bind_eq_ok.mp h
  obtain ⟨systemName, hsys, h⟩ := except_bind_eq_ok.mp h
  obtain ⟨filename, hfi, h⟩ := except_bind_eq_ok.mp h
  cases h
  exact ⟨u32FromI64_ok hnm, u32FromI64_ok hsys, u32FromI64_ok hfi, rfl⟩

variable {mapping : PprofMapping}

theorem walMapping_ok {value : MappingRec}
    (h : walMapping mapping = .ok value) :
    (0 ≤ mapping.filename.toInt ∧ value.filename = mapping.filename.toInt.toNat) ∧
      (0 ≤ mapping.buildId.toInt ∧ value.buildId = mapping.buildId.toInt.toNat) ∧
      value.memoryStart = mapping.memoryStart ∧ value.memoryLimit = mapping.memoryLimit ∧
      value.fileOffset = mapping.fileOffset ∧ value.symbolization = mapping.symbolization := by
  obtain ⟨filename, hfi, h⟩ := except_bind_eq_ok.mp h
  obtain ⟨buildId, hbd, h⟩ := except_bind_eq_ok.mp h
  cases h
  exact ⟨u32FromI64_ok hfi, u32FromI64_ok hbd, rfl, rfl, rfl, rfl⟩

theorem walLine_ok {functions : List Nat} {line : PprofLine} {value : LineRec}
    (h : walLine functions line = .ok value) :
    functions[value.functionId]? = some line.functionId ∧ value.line = line.line.toInt := by
  obtain ⟨functionId, hid, h⟩ := except_bind_eq_ok.mp h
  cases h
  exact ⟨normalizeRequiredPprofId_ok hid, rfl⟩

variable {location : PprofLocation}

theorem walLocation_ok {mappings functions : List Nat}
    {value : LocationRec} (h : walLocation mappings functions location = .ok value) :
    value.address = location.address ∧
      (location.mappingId ≠ 0 → mappings[value.mappingId]? = some location.mappingId) ∧
      List.Forall₂ (fun line value => functions[value.functionId]? = some line.functionId ∧
        value.line = line.line.toInt) location.lines value.lines := by
  obtain ⟨mappingId, hid, h⟩ := except_bind_eq_ok.mp h
  obtain ⟨lines, hln, h⟩ := except_bind_eq_ok.mp h
  cases h
  refine ⟨rfl, fun hne => ?_, (forall₂_of_mapM_ok hln).imp fun _ _ hli => walLine_ok hli⟩
  rw [normalizeOptionalPprofId, if_neg hne] at hid
  exact normalizeRequiredPprofId_ok hid

/-- What the tables of an upload hold. -/
structure Extracted (profile : PprofProfile) (symbols : Tables) : Prop where
  strings : symbols.strings = profile.stringTable
  valid : ∀ ref ∈ profile.stringRefs, (profile.string ref.1).isSome
  functions : List.Forall₂ (fun function value => walFunction function = .ok value)
    profile.function symbols.functions
  mappings : List.Forall₂ (fun mapping value => walMapping mapping = .ok value)
    profile.mapping symbols.mappings
  locations : List.Forall₂ (fun location value =>
    walLocation (profile.mapping.map PprofMapping.id) (profile.function.map PprofFunction.id)
      location = .ok value) profile.location symbols.locations

theorem extractSymbols_ok {profile : PprofProfile} {symbols : Tables}
    (h : extractSymbols profile = .ok symbols) : Extracted profile symbols := by
  obtain ⟨_, hv, h⟩ := except_bind_eq_ok.mp h
  obtain ⟨functions, hfu, h⟩ := except_bind_eq_ok.mp h
  obtain ⟨locations, hlo, h⟩ := except_bind_eq_ok.mp h
  obtain ⟨mappings, hma, h⟩ := except_bind_eq_ok.mp h
  cases h
  refine ⟨rfl, fun ref href => ?_, forall₂_of_mapM_ok hfu, forall₂_of_mapM_ok hma,
    forall₂_of_mapM_ok hlo⟩
  rw [PprofProfile.validateStrings] at hv
  split at hv
  · cases hv
  · split at hv
    · cases hv
    · rename_i hno
      have := find?_eq_none.mp hno ref href
      cases hst : profile.string ref.1 with
      | none => simp [hst] at this
      | some value => rfl

/-! ### The meaning of an upload -/

namespace PprofProfile

variable (drop : String → String) (profile : PprofProfile)

def text (index : Int64) : String := (profile.string index).getD ""

def functionContent (function : PprofFunction) : ResolvedFunction :=
  ⟨drop (profile.text function.name), profile.text function.systemName,
    profile.text function.filename, function.startLine⟩

def mappingContent (mapping : PprofMapping) : ResolvedMapping :=
  ⟨mapping.memoryStart, mapping.memoryLimit, mapping.fileOffset, profile.text mapping.filename,
    profile.text mapping.buildId, mapping.symbolization⟩

def lineContent (line : PprofLine) : Option ResolvedLine :=
  (profile.function.find? (·.id = line.functionId)).map fun function =>
    ⟨profile.functionContent drop function, line.line.toInt⟩

/-- A location as its upload means it; mapping id 0 means no mapping. -/
def locationContent (location : PprofLocation) : ResolvedLocation :=
  { address := location.address
    mapping := if location.mappingId = 0 then none else
      (profile.mapping.find? (·.id = location.mappingId)).map profile.mappingContent
    lines := location.lines.filterMap (profile.lineContent drop) }

/-- Ids are unique. -/
structure UniqueIds : Prop where
  function : (profile.function.map PprofFunction.id).Nodup
  mapping : (profile.mapping.map PprofMapping.id).Nodup
  location : (profile.location.map PprofLocation.id).Nodup

end PprofProfile

open PprofProfile

/-- With unique ids the element at the position of an id is the one that has it. -/
theorem find?_of_position {α : Type} {xs : List α} {key : α → Nat} (nodup : (xs.map key).Nodup)
    {place id : Nat} (h : (xs.map key)[place]? = some id) :
    ∃ x, xs[place]? = some x ∧ xs.find? (key · = id) = some x := by
  rw [getElem?_map] at h
  obtain ⟨x, hx, rfl⟩ := Option.map_eq_some_iff.mp h
  refine ⟨x, hx, ?_⟩
  have hmem := mem_of_getElem? hx
  obtain ⟨found, hfd⟩ : ∃ found, xs.find? (key · = key x) = some found :=
    Option.isSome_iff_exists.mp (find?_isSome.mpr ⟨x, hmem, by simp⟩)
  have hkey : key found = key x := by simpa using find?_some hfd
  rw [hfd, inj_on_of_nodup_map nodup (mem_of_find?_eq_some hfd) hmem hkey]

section Meaning

variable {drop : String → String} {profile : PprofProfile} {symbols : Tables}

variable {place : Nat}

section

variable (h : Extracted profile symbols)
include h

theorem Extracted.string_eq {index : Int64}
    (hplace : 0 ≤ index.toInt ∧ place = index.toInt.toNat) :
    symbols.string place = profile.text index := by
  rw [Tables.string, text, string, if_pos hplace.1, h.strings, hplace.2]

theorem Extracted.string_lt {ref : Int64 × String}
    (href : ref ∈ profile.stringRefs) (hplace : 0 ≤ ref.1.toInt ∧ place = ref.1.toInt.toNat) :
    place < symbols.strings.length := by
  obtain ⟨value, hval⟩ := Option.isSome_iff_exists.mp (h.valid ref href)
  rw [string, if_pos hplace.1] at hval
  rw [h.strings, hplace.2]
  exact (List.getElem?_eq_some_iff.mp hval).1

theorem Extracted.line_eq (huni : profile.UniqueIds)
    {line : PprofLine} {value : LineRec}
    (hline : (profile.function.map PprofFunction.id)[value.functionId]? = some line.functionId ∧
      value.line = line.line.toInt) :
    symbols.resolveLine drop value = profile.lineContent drop line := by
  obtain ⟨function, hat, hfin⟩ := find?_of_position huni.function hline.1
  obtain ⟨rec, hrec, hok⟩ := getElem?_of_forall₂ h.functions hat
  obtain ⟨hnm, hsys, hfi, hst⟩ := walFunction_ok hok
  rw [Tables.resolveLine, lineContent, hfin, hrec, Option.map_some, Option.map_some,
    Tables.resolveFunction, functionContent, h.string_eq hnm, h.string_eq hsys,
    h.string_eq hfi, hst, hline.2]

theorem Extracted.mapping_eq (huni : profile.UniqueIds) {id : Nat}
    (hplace : (profile.mapping.map PprofMapping.id)[place]? = some id) :
    symbols.mappings[place]?.map symbols.resolveMapping =
      (profile.mapping.find? (·.id = id)).map profile.mappingContent := by
  obtain ⟨mapping, hat, hfin⟩ := find?_of_position huni.mapping hplace
  obtain ⟨rec, hrec, hok⟩ := getElem?_of_forall₂ h.mappings hat
  obtain ⟨hfi, hbd, hst, hlim, hoff, hfl⟩ := walMapping_ok hok
  rw [hfin, hrec, Option.map_some, Option.map_some, Tables.resolveMapping,
    mappingContent, h.string_eq hfi, h.string_eq hbd, hst, hlim, hoff,
    hfl]

/-- A location with a mapping resolves by its position to what its upload means. -/
theorem Extracted.resolve_eq (huni : profile.UniqueIds)
    (hat : profile.location[place]? = some location)
    (hmpd : location.mappingId ≠ 0) :
    symbols.resolve drop place = some (profile.locationContent drop location) := by
  obtain ⟨value, hval, hok⟩ := getElem?_of_forall₂ h.locations hat
  obtain ⟨had, hmap, hln⟩ := walLocation_ok hok
  have hrsd : value.lines.filterMap (symbols.resolveLine drop) =
      location.lines.filterMap (profile.lineContent drop) :=
    filterMap_eq_of_forall₂ (hln.imp fun _ _ hli => h.line_eq huni hli)
  rw [Tables.resolve, hval, Option.map_some, Tables.resolveLocation,
    locationContent, if_neg hmpd, had, hrsd,
    h.mapping_eq huni (hmap hmpd)]

end

theorem mem_stringRefs_of_function (h : function ∈ profile.function) :
    (function.name, "function name") ∈ profile.stringRefs ∧
      (function.systemName, "function system name") ∈ profile.stringRefs ∧
      (function.filename, "function file name") ∈ profile.stringRefs := by
  have hall : ∀ ref ∈ [(function.name, "function name"),
      (function.systemName, "function system name"), (function.filename, "function file name")],
      ref ∈ profile.stringRefs := by
    intro ref href
    simp only [stringRefs, mem_append, mem_flatMap]
    exact .inl (.inl (.inl (.inl (.inr ⟨function, h, href⟩))))
  exact ⟨hall _ (by simp), hall _ (by simp), hall _ (by simp)⟩

theorem mem_stringRefs_of_mapping (h : mapping ∈ profile.mapping) :
    (mapping.filename, "mapping file name") ∈ profile.stringRefs ∧
      (mapping.buildId, "mapping build ID") ∈ profile.stringRefs := by
  have hall : ∀ ref ∈ [(mapping.filename, "mapping file name"),
      (mapping.buildId, "mapping build ID")], ref ∈ profile.stringRefs := by
    intro ref href
    simp only [stringRefs, mem_append, mem_flatMap]
    exact .inl (.inl (.inl (.inr ⟨mapping, h, href⟩)))
  exact ⟨hall _ (by simp), hall _ (by simp)⟩

/-- The tables of an upload whose locations have mappings refer to nothing out of range. -/
theorem Extracted.closed (h : Extracted profile symbols)
    (hmpd : ∀ location ∈ profile.location, location.mappingId ≠ 0) : Closed symbols := by
  refine ⟨fun value hval => ?_, fun value hval => ?_, fun value hval => ?_⟩
  · obtain ⟨function, hmem, hok⟩ := mem_of_forall₂ h.functions hval
    obtain ⟨hnm, hsys, hfi, -⟩ := walFunction_ok hok
    obtain ⟨hrefn, hrefs, hre⟩ := mem_stringRefs_of_function hmem
    exact ⟨h.string_lt hrefn hnm, h.string_lt hrefs hsys, h.string_lt hre hfi⟩
  · obtain ⟨mapping, hmem, hok⟩ := mem_of_forall₂ h.mappings hval
    obtain ⟨hfi, hbd, -⟩ := walMapping_ok hok
    obtain ⟨hre, href⟩ := mem_stringRefs_of_mapping hmem
    exact ⟨h.string_lt hre hfi, h.string_lt href hbd⟩
  · obtain ⟨location, hmem, hok⟩ := mem_of_forall₂ h.locations hval
    obtain ⟨-, hmap, hln⟩ := walLocation_ok hok
    have hlt {α : Type} {xs : List α} {key : α → Nat} {place id : Nat}
        (hat : (xs.map key)[place]? = some id) : place < xs.length := by
      have := (List.getElem?_eq_some_iff.mp hat).1
      rwa [length_map] at this
    refine ⟨?_, fun line hli => ?_⟩
    · rw [← h.mappings.length_eq]
      exact hlt (hmap (hmpd location hmem))
    · obtain ⟨source, -, hsrc⟩ := mem_of_forall₂ hln hli
      rw [← h.functions.length_eq]
      exact hlt hsrc.1

end Meaning

end KrabkaO11y.Profiles
