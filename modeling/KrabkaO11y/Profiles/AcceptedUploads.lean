import KrabkaO11y.Collections.Chunks
import KrabkaO11y.Collections.Upsert
import KrabkaO11y.Profiles.CumulativeDelta
import KrabkaO11y.Profiles.SymbolBlocks

/-!
Which accepted uploads the consumers of the WAL can take
(`crates/profiles/src/distributor/process_raw.rs`, `ingest/split/split_sample_types.rs`,
`blockbuilder/record_writer.rs`, `blockbuilder/build_block.rs`, `hot_store/apply_record.rs`).

The distributor checks references, string indexes and limits. The block builder and the hot
tail narrow line numbers to `i32` and add the values of a record up in `i64`, and nothing
checked either before.
-/

namespace KrabkaO11y.Profiles

open Collections Concurrent Cumulative List

/-! ### Records -/

abbrev Labels := List (String × String)

def replaceValue (old new : String × String) : String × String := (old.1, new.2)

def insertLabel (labels : Labels) (name value : String) : Labels :=
  upsert Prod.fst replaceValue (name, value) labels

def getLabel (labels : Labels) (name : String) : Option String :=
  (labels.find? (·.1 = name)).map Prod.snd

structure SampleProvenance where
  timestampNs : Int64
  spanId : Option Nat
  traceId : Option (List Nat)
deriving DecidableEq, Repr

/-- Samples of one series, before and in the WAL. -/
structure DecodedProfile where
  labels : Labels
  profileType : String
  samples : List (WalSample SampleProvenance)
deriving DecidableEq, Repr

structure ProfileRecord where
  labels : Labels
  profileType : String
  samples : List (WalSample SampleProvenance)
  symbols : Tables
deriving DecidableEq, Repr

structure RawProfile where
  labels : Labels
  profile : PprofProfile
  delta : Bool
  sampleTimestampsNs : List (List Int64)
  sampleSpanIds : List (Option Nat)
  sampleTraceIds : List (Option (List Nat))

/-! ### Splitting by sample type -/

def sampleLabel (profile : PprofProfile) (sample : PprofSample) (wanted : String) : Option String :=
  sample.label.findSome? fun label =>
    if profile.string label.key = some wanted then profile.string label.str else none

/-- A sample's own label, unless the series has one of its name. -/
def addSampleLabel (profile : PprofProfile) (labels : Labels) (label : PprofLabel) : Labels :=
  if label.str.toInt ≤ (0 : Int) then labels
  else
    match profile.string label.key, profile.string label.str with
    | some name, some value =>
      if (getLabel labels name).isSome then labels else insertLabel labels name value
    | _, _ => labels

def labelsWithSampleLabels (base : Labels) (profile : PprofProfile) (sample : PprofSample) :
    Labels :=
  sample.label.foldl (addSampleLabel profile) base

def profileTypeText (name sampleType sampleUnit periodType periodUnit : String) (delta : Bool) :
    String :=
  name ++ ":" ++ sampleType ++ ":" ++ sampleUnit ++ ":" ++ periodType ++ ":" ++ periodUnit ++
    if delta then ":delta" else ""

/-- The labels of a series that every sample of a type has. -/
def stampLabels (raw : RawProfile) (name profileType periodType periodUnit type unit : String) :
    Labels :=
  let stamps := [("__name__", name), ("__profile_type__", profileType),
    ("__period_type__", periodType), ("__period_unit__", periodUnit), ("__type__", type),
    ("__unit__", unit)]
  let labels := stamps.foldl (fun labels stamp => insertLabel labels stamp.1 stamp.2) raw.labels
  match getLabel raw.labels "service_name" with
  | some serviceName => insertLabel labels "__service_name__" serviceName
  | none => labels

/-- The series and sample of a pprof sample for the type at an index, unless its value is zero. -/
def decodeSample (raw : RawProfile) (defaultName type unit : String) (idx : Nat)
    (entry : PprofSample × Nat) : Except String (Option DecodedProfile) :=
  match entry.1.value[idx]? with
  | none => .error ("sample value[" ++ toString idx ++ "] missing")
  | some value =>
    if value = 0 then .ok none
    else do
      let refs ← locationRefs raw.profile entry.1
      let period := raw.profile.periodType.map fun kind =>
        ((raw.profile.string kind.type).getD "", (raw.profile.string kind.unit).getD "")
      let name := (sampleLabel raw.profile entry.1 "__name__").getD defaultName
      let periodType := (sampleLabel raw.profile entry.1 "__period_type__").getD
        ((period.map Prod.fst).getD "")
      let periodUnit := (sampleLabel raw.profile entry.1 "__period_unit__").getD
        ((period.map Prod.snd).getD "")
      let profileType := profileTypeText name type unit periodType periodUnit raw.delta
      return some
        { labels := labelsWithSampleLabels
            (stampLabels raw name profileType periodType periodUnit type unit) raw.profile entry.1
          profileType := profileType
          samples := [⟨refs, value,
            ((raw.sampleTimestampsNs[entry.2]?).bind (·[idx]?)).getD raw.profile.timeNanos,
            (raw.sampleSpanIds[entry.2]?).join, (raw.sampleTraceIds[entry.2]?).join⟩] }

/-- Samples of one label set are one series. -/
def groupKey (profile : DecodedProfile) : Multiset (String × String) := ↑profile.labels

def DecodedProfile.absorb (profile other : DecodedProfile) : DecodedProfile :=
  { profile with samples := profile.samples ++ other.samples }

def splitType (raw : RawProfile) (defaultName : String) (kind : PprofValueType × Nat) :
    Except String (List DecodedProfile) :=
  let type := (raw.profile.string kind.1.type).getD ""
  let unit := (raw.profile.string kind.1.unit).getD ""
  if type = "" ∨ unit = "" then
    .error ("sample_type[" ++ toString kind.2 ++ "] is missing or invalid")
  else do
    let decoded ← raw.profile.sample.zipIdx.mapM (decodeSample raw defaultName type unit kind.2)
    return upsertAll groupKey DecodedProfile.absorb [] decoded.reduceOption

def splitSampleTypes (raw : RawProfile) : Except String (List DecodedProfile) :=
  match (getLabel raw.labels "__name__").filter (· ≠ "") with
  | none => .error "missing __name__"
  | some defaultName => do
    let split ← raw.profile.sampleType.zipIdx.mapM (splitType raw defaultName)
    return split.flatten

/-! ### Acceptance -/

/-- The tenant's limits, the relabelling, and the baselines of cumulative series. -/
structure Settings where
  relabel : Labels → Option Labels
  prepare : Labels → Labels
  enforceLimits : Labels → Except String Unit
  reserveSeries : List ProfileRecord → Except String Unit
  enforceIngestionRate : Nat → Except String Unit
  baselines : Labels → Option Baseline

/-- A record as it is stored: of a cumulative upload its growth. -/
def storedRecord (settings : Settings) (delta : Bool) (record : ProfileRecord) :
    Except String ProfileRecord :=
  if delta then
    match settings.baselines record.labels with
    | none => .ok { record with samples := [] }
    | some previous =>
      match deltas previous record.samples with
      | none => .error "attempt to subtract with overflow"
      | some samples => .ok { record with samples := samples.filter (·.value ≠ 0) }
  else .ok record

/-- The records that an upload appends to the WAL. -/
def acceptUpload (settings : Settings) (raw : RawProfile) : Except String (List ProfileRecord) :=
  match settings.relabel raw.labels with
  | none => .ok []
  | some labels => do
    let raw := { raw with labels := settings.prepare labels }
    let symbols ← extractSymbols raw.profile
    let profiles ← splitSampleTypes raw
    let _ ← profiles.mapM fun profile => settings.enforceLimits profile.labels
    let records := profiles.map fun profile =>
      (⟨profile.labels, profile.profileType, profile.samples, symbols⟩ : ProfileRecord)
    settings.reserveSeries records
    let stored ← records.mapM (storedRecord settings raw.delta)
    let pending := stored.filter (·.samples ≠ [])
    if pending = [] then return []
    settings.enforceIngestionRate pending.length
    return pending

/-! ### Consumption -/

def checkedAdd (a b : Int64) : Option Int64 :=
  if -2 ^ 63 ≤ a.toInt + b.toInt ∧ a.toInt + b.toInt < 2 ^ 63 then
    some (Int64.ofInt (a.toInt + b.toInt))
  else none

/-- The total of a record, added up in order, unless it overflows on the way. -/
def totalValue (record : ProfileRecord) : Option Int64 :=
  record.samples.foldlM (fun total sample => checkedAdd total sample.value) 0

/-- Interns a record and adds its values up, as the block builder and the hot tail do. -/
def consumeRecord (db : SymbolDb) (record : ProfileRecord) : Except String SymbolDb := do
  let interned ← internRecord db
    ⟨record.symbols, record.samples.map WalSample.stacktraceLocationRefs⟩
  match totalValue record with
  | none => .error "attempt to add with overflow"
  | some _ => .ok interned.1

/-- The index refuses a series without a profile type; its message also names the series. -/
def addSeries (record : ProfileRecord) : Except String Unit :=
  if "__profile_type__" ∈ record.labels.map Prod.fst then .ok ()
  else .error "has no __profile_type__ label, so no profile-type selector could ever reach it"

/-- The symbols of the blocks that a flush of some records writes, with their partitions. -/
def flushRecords (flushRecords : Nat) (partition : ProfileRecord → Nat)
    (records : List ProfileRecord) : Except String (List (List SymbolDb)) := do
  let _ ← records.mapM addSeries
  (records.map partition).dedup.mapM fun p =>
    (chunks (max flushRecords 1) (records.filter (partition · = p))).mapM fun chunk =>
      chunk.foldlM consumeRecord SymbolDb.new

/-- The hot tail's symbols after some records. -/
def applyRecords (db : SymbolDb) (records : List ProfileRecord) : Except String SymbolDb :=
  records.foldlM consumeRecord db

/-! ### What acceptance gives -/

theorem keys_insert (labels : Labels) (name value key : String) :
    key ∈ (insertLabel labels name value).map Prod.fst ↔ key ∈ labels.map Prod.fst ∨ key = name :=
  @mem_map_key_upsert _ _ _ Prod.fst replaceValue (fun _ _ => rfl) (name, value) labels key

theorem keys_labelsWithSampleLabels {base : Labels} {profile : PprofProfile} {sample : PprofSample}
    {key : String} (h : key ∈ base.map Prod.fst) :
    key ∈ (labelsWithSampleLabels base profile sample).map Prod.fst := by
  rw [labelsWithSampleLabels]
  generalize sample.label = labels
  induction labels generalizing base with
  | nil => exact h
  | cons label rest ih =>
    rw [foldl_cons]
    refine ih ?_
    rw [addSampleLabel]
    split
    · exact h
    · split
      · split
        · exact h
        · exact (keys_insert _ _ _ _).mpr (.inl h)
      · exact h

theorem keys_stampLabels (raw : RawProfile)
    (name profileType periodType periodUnit type unit : String) :
    "__profile_type__" ∈
      (stampLabels raw name profileType periodType periodUnit type unit).map Prod.fst := by
  rw [stampLabels]
  dsimp only [List.foldl]
  split <;> simp only [keys_insert, true_or, or_true]

/-- The series has a profile type. -/
def Typed (profile : DecodedProfile) : Prop := "__profile_type__" ∈ profile.labels.map Prod.fst

variable {raw : RawProfile} {profile : DecodedProfile}

theorem typed_of_decodeSample {defaultName type unit : String} {idx : Nat}
    {entry : PprofSample × Nat}
    (h : decodeSample raw defaultName type unit idx entry = .ok (some profile)) :
    Typed profile := by
  rw [decodeSample] at h
  split at h
  · cases h
  · split at h
    · exact absurd (Except.ok.inj h) nofun
    · obtain ⟨refs, -, h⟩ := except_bind_eq_ok.mp h
      obtain rfl := Option.some.inj (Except.ok.inj h)
      exact keys_labelsWithSampleLabels (keys_stampLabels ..)

variable {profiles : List DecodedProfile}

theorem typed_upsert
    (hpro : ∀ other ∈ profiles, Typed other) (hprofile : Typed profile) :
    ∀ other ∈ upsert groupKey DecodedProfile.absorb profile profiles, Typed other := by
  induction profiles with
  | nil =>
    intro other ho
    rw [mem_singleton.mp ho]
    exact hprofile
  | cons first rest ih =>
    intro other ho
    rw [upsert] at ho
    have hf := hpro first mem_cons_self
    have hr := fun other ho => hpro other (mem_cons_of_mem _ ho)
    split at ho
    · rcases mem_cons.mp ho with rfl | ho
      · exact hf
      · exact hr other ho
    · rcases mem_cons.mp ho with rfl | ho
      · exact hf
      · exact ih hr other ho

theorem typed_upsertAll : ∀ {groups : List DecodedProfile},
    (∀ group ∈ groups, Typed group) → (∀ profile ∈ profiles, Typed profile) →
      ∀ group ∈ upsertAll groupKey DecodedProfile.absorb groups profiles, Typed group := by
  induction profiles with
  | nil => exact fun hgr _ => hgr
  | cons profile rest ih =>
    intro groups hgr hall
    exact ih (typed_upsert hgr (hall profile mem_cons_self)) fun other ho =>
      hall other (mem_cons_of_mem _ ho)

theorem typed_of_splitType {defaultName : String} {kind : PprofValueType × Nat}
    (h : splitType raw defaultName kind = .ok profiles) :
    ∀ profile ∈ profiles, Typed profile := by
  rw [splitType] at h
  split at h
  · cases h
  · obtain ⟨decoded, hdec, h⟩ := except_bind_eq_ok.mp h
    cases h
    refine typed_upsertAll (nofun) fun profile hpr => ?_
    obtain ⟨entry, -, he⟩ := mem_of_forall₂ (forall₂_of_mapM_ok hdec)
      (reduceOption_mem_iff.mp hpr)
    exact typed_of_decodeSample he

theorem typed_of_splitSampleTypes
    (h : splitSampleTypes raw = .ok profiles) : ∀ profile ∈ profiles, Typed profile := by
  rw [splitSampleTypes] at h
  split at h
  · cases h
  · obtain ⟨split, hsp, h⟩ := except_bind_eq_ok.mp h
    cases h
    intro profile hpr
    obtain ⟨part, hp, hmem⟩ := mem_flatten.mp hpr
    obtain ⟨kind, -, hkd⟩ := mem_of_forall₂ (forall₂_of_mapM_ok hsp) hp
    exact typed_of_splitType hkd profile hmem

variable {settings : Settings}

theorem storedRecord_ok {delta : Bool} {record stored : ProfileRecord}
    (h : storedRecord settings delta record = .ok stored) :
    stored.labels = record.labels ∧ stored.symbols = record.symbols := by
  rw [storedRecord] at h
  split at h
  · split at h
    · cases h
      exact ⟨rfl, rfl⟩
    · split at h <;> cases h
      exact ⟨rfl, rfl⟩
  · cases h
    exact ⟨rfl, rfl⟩

/-- Every record of an accepted upload has a profile type and the upload's symbols. -/
theorem acceptUpload_ok {pending : List ProfileRecord}
    (h : acceptUpload settings raw = .ok pending) : ∀ record ∈ pending,
      "__profile_type__" ∈ record.labels.map Prod.fst ∧ Extracted raw.profile record.symbols := by
  rw [acceptUpload] at h
  split at h
  · cases h
    exact nofun
  · obtain ⟨symbols, hsy, h⟩ := except_bind_eq_ok.mp h
    obtain ⟨profiles, hpro, h⟩ := except_bind_eq_ok.mp h
    obtain ⟨_, -, h⟩ := except_bind_eq_ok.mp h
    obtain ⟨_, -, h⟩ := except_bind_eq_ok.mp h
    obtain ⟨stored, hsto, h⟩ := except_bind_eq_ok.mp h
    have hall : ∀ record ∈ stored, "__profile_type__" ∈ record.labels.map Prod.fst ∧
        Extracted raw.profile record.symbols := by
      intro record hrec
      obtain ⟨source, hsrc, hok⟩ := mem_of_forall₂ (forall₂_of_mapM_ok hsto) hrec
      obtain ⟨profile, hpr, rfl⟩ := mem_map.mp hsrc
      obtain ⟨hlab, hsm⟩ := storedRecord_ok hok
      rw [hlab, hsm]
      exact ⟨typed_of_splitSampleTypes hpro profile hpr, extractSymbols_ok hsy⟩
    dsimp only at h
    split at h
    · cases h
      exact nofun
    · obtain ⟨_, -, h⟩ := except_bind_eq_ok.mp h
      cases h
      exact fun record hrec => hall record (mem_of_mem_filter hrec)

/-! ### When consumption succeeds -/

/-- An operation gives a result. -/
def Succeeds {ε α : Type} (x : Except ε α) : Prop := ∃ a, x = .ok a

theorem succeeds_bind {ε α β : Type} {x : Except ε α} {f : α → Except ε β} :
    Succeeds (x >>= f) ↔ ∃ a, x = .ok a ∧ Succeeds (f a) := by
  constructor
  · rintro ⟨b, hb⟩
    obtain ⟨a, ha, hf⟩ := except_bind_eq_ok.mp hb
    exact ⟨a, ha, b, hf⟩
  · rintro ⟨a, rfl, b, hb⟩
    exact ⟨b, hb⟩

theorem succeeds_mapM {ε α β : Type} {f : α → Except ε β} {xs : List α} :
    Succeeds (xs.mapM f) ↔ ∀ x ∈ xs, Succeeds (f x) := by
  induction xs with
  | nil => exact iff_of_true ⟨[], rfl⟩ (nofun)
  | cons x xs ih =>
    rw [mapM_cons, succeeds_bind, forall_mem_cons, ← ih]
    constructor
    · rintro ⟨a, ha, hr⟩
      obtain ⟨rest, hr, -⟩ := succeeds_bind.mp hr
      exact ⟨⟨a, ha⟩, rest, hr⟩
    · rintro ⟨⟨a, ha⟩, rest, hr⟩
      exact ⟨a, ha, succeeds_bind.mpr ⟨rest, hr, _, rfl⟩⟩

/-- A fold of steps that succeed or fail whatever the state. -/
theorem succeeds_foldlM {ε σ α : Type} {f : σ → α → Except ε σ} {P : α → Prop}
    (step : ∀ s a, Succeeds (f s a) ↔ P a) {xs : List α} :
    ∀ {s : σ}, Succeeds (xs.foldlM f s) ↔ ∀ x ∈ xs, P x := by
  induction xs with
  | nil => exact fun {s} => iff_of_true ⟨s, rfl⟩ (nofun)
  | cons x xs ih =>
    intro s
    rw [foldlM_cons, succeeds_bind, forall_mem_cons]
    constructor
    · rintro ⟨s', hs', hr⟩
      exact ⟨(step s x).mp ⟨s', hs'⟩, ih.mp hr⟩
    · rintro ⟨hx, hr⟩
      obtain ⟨s', hs'⟩ := (step s x).mpr hx
      exact ⟨s', hs', ih.mpr hr⟩

/-- The line numbers of a record fit `i32`, and its running total stays within `i64`. -/
def Consumable (record : ProfileRecord) : Prop :=
  LinesFit record.symbols ∧ (totalValue record).isSome

theorem succeeds_consumeRecord (db : SymbolDb) (record : ProfileRecord) :
    Succeeds (consumeRecord db record) ↔ Consumable record := by
  have hin : Succeeds (internRecord db
      ⟨record.symbols, record.samples.map WalSample.stacktraceLocationRefs⟩) ↔
        LinesFit record.symbols := by
    rw [internRecord, succeeds_bind, internSymbols]
    constructor
    · rintro ⟨tables, htab, -⟩
      by_contra hfit
      rw [if_neg hfit] at htab
      cases htab
    · intro hfit
      exact ⟨_, if_pos hfit, _, rfl⟩
  rw [consumeRecord, succeeds_bind, Consumable, ← hin]
  cases htot : totalValue record with
  | none =>
    refine iff_of_false ?_ (fun h => absurd h.2 Bool.false_ne_true)
    rintro ⟨_, -, _, h⟩
    cases h
  | some total =>
    constructor
    · rintro ⟨interned, hint, -⟩
      exact ⟨⟨interned, hint⟩, rfl⟩
    · rintro ⟨⟨interned, hint⟩, -⟩
      exact ⟨interned, hint, _, rfl⟩

theorem succeeds_addSeries (record : ProfileRecord) :
    Succeeds (addSeries record) ↔ "__profile_type__" ∈ record.labels.map Prod.fst := by
  rw [addSeries]
  split
  · rename_i h
    exact iff_of_true ⟨(), rfl⟩ h
  · rename_i h
    refine iff_of_false ?_ h
    rintro ⟨_, her⟩
    cases her

theorem succeeds_flushRecords {size : Nat} {partition : ProfileRecord → Nat}
    {records : List ProfileRecord}
    (typed : ∀ record ∈ records, "__profile_type__" ∈ record.labels.map Prod.fst) :
    Succeeds (flushRecords size partition records) ↔ ∀ record ∈ records, Consumable record := by
  obtain ⟨units, hun⟩ : Succeeds (records.mapM addSeries) :=
    succeeds_mapM.mpr fun record hrec => (succeeds_addSeries record).mpr (typed record hrec)
  have hchu (entries : List ProfileRecord) :
      Succeeds ((chunks (max size 1) entries).mapM fun chunk =>
        chunk.foldlM consumeRecord SymbolDb.new) ↔ ∀ record ∈ entries, Consumable record := by
    have hfl : (chunks (max size 1) entries).flatten = entries :=
      (chunks_spec (show 0 < max size 1 by omega) entries).1
    simp only [succeeds_mapM, succeeds_foldlM succeeds_consumeRecord]
    constructor
    · intro h record hrec
      rw [← hfl] at hrec
      obtain ⟨chunk, hch, hmem⟩ := mem_flatten.mp hrec
      exact h chunk hch record hmem
    · intro h chunk hch record hrec
      refine h record ?_
      rw [← hfl]
      exact mem_flatten_of_mem hch hrec
  rw [flushRecords, succeeds_bind]
  simp only [hun, Except.ok.injEq, exists_eq_left', succeeds_mapM, hchu, mem_filter,
    decide_eq_true_eq]
  constructor
  · intro h record hrec
    exact h (partition record) (mem_dedup.mpr (mem_map_of_mem hrec)) record
      ⟨hrec, rfl⟩
  · exact fun h p _ record hrec => h record hrec.1

/-- The line numbers of an upload fit `i32`. -/
def PprofProfile.LinesFit (profile : PprofProfile) : Prop :=
  ∀ location ∈ profile.location, ∀ line ∈ location.lines,
    -2 ^ 31 ≤ line.line.toInt ∧ line.line.toInt < 2 ^ 31

theorem Extracted.linesFit_iff {profile : PprofProfile} {symbols : Tables}
    (h : Extracted profile symbols) : LinesFit symbols ↔ profile.LinesFit := by
  constructor
  · intro hfit location hloc line hln
    obtain ⟨i, hi⟩ := getElem?_of_mem hloc
    obtain ⟨value, hval, hok⟩ := getElem?_of_forall₂ h.locations hi
    obtain ⟨j, hj⟩ := getElem?_of_mem hln
    obtain ⟨narrowed, hna, -, hsm⟩ := getElem?_of_forall₂ (walLocation_ok hok).2.2 hj
    rw [← hsm]
    exact hfit value (mem_of_getElem? hval) narrowed (mem_of_getElem? hna)
  · intro hfit value hval narrowed hna
    obtain ⟨location, hloc, hok⟩ := mem_of_forall₂ h.locations hval
    obtain ⟨line, hln, -, hsm⟩ := mem_of_forall₂ (walLocation_ok hok).2.2 hna
    rw [hsm]
    exact hfit location hloc line hln

/-- The consumers take the records of an accepted upload exactly when the line numbers of the
upload fit `i32` and the running total of every record stays within `i64`. -/
theorem accepted_upload_consumed_iff {settings : Settings} {raw : RawProfile}
    {pending : List ProfileRecord} (h : acceptUpload settings raw = .ok pending) (size : Nat)
    (partition : ProfileRecord → Nat) (db : SymbolDb) :
    (Succeeds (flushRecords size partition pending) ∧ Succeeds (applyRecords db pending)) ↔
      (pending ≠ [] → raw.profile.LinesFit) ∧
        ∀ record ∈ pending, (totalValue record).isSome := by
  have hrecords := acceptUpload_ok h
  rw [succeeds_flushRecords fun record hrecord => (hrecords record hrecord).1, applyRecords,
    succeeds_foldlM succeeds_consumeRecord, and_self]
  constructor
  · refine fun hall => ⟨fun hne => ?_, fun record hrecord => (hall record hrecord).2⟩
    obtain ⟨record, hrecord⟩ := exists_mem_of_ne_nil pending hne
    exact (hrecords record hrecord).2.linesFit_iff.mp (hall record hrecord).1
  · exact fun hall record hrecord =>
      ⟨(hrecords record hrecord).2.linesFit_iff.mpr (hall.1 (ne_nil_of_mem hrecord)),
        hall.2 record hrecord⟩

/-- No limits, no relabelling and no baselines. -/
def openSettings : Settings :=
  ⟨some, id, fun _ => .ok (), fun _ => .ok (), fun _ => .ok (), fun _ => none⟩

/-- An upload with one sample of one location at a line. -/
def lineUpload (line : Int64) : RawProfile :=
  { labels := [("__name__", "process_cpu"), ("service_name", "app")]
    profile :=
      { stringTable := ["", "main", "app", "cpu", "nanoseconds"]
        sampleType := [⟨3, 4⟩]
        periodType := none
        function := [⟨1, 1, 1, 0, 10⟩]
        mapping := [⟨1, 0, 4096, 0, 2, 0, ⟨true, true, true, true⟩⟩]
        location := [⟨1, 1, 64, [⟨1, line⟩]⟩]
        sample := [⟨[1], [5], []⟩]
        comment := []
        dropFrames := 0
        keepFrames := 0
        defaultSampleType := 0
        timeNanos := 0 }
    delta := false
    sampleTimestampsNs := []
    sampleSpanIds := []
    sampleTraceIds := [] }

theorem accepted_upload_consumed_line_12 :
    ∃ pending, acceptUpload openSettings (lineUpload 12) = .ok pending ∧ pending.length = 1 ∧
      Succeeds (flushRecords 100 (fun _ => 0) pending) ∧
        Succeeds (applyRecords SymbolDb.new pending) := by
  obtain ⟨pending, hpending, hlength, htotal⟩ : ∃ pending,
      acceptUpload openSettings (lineUpload 12) = .ok pending ∧ pending.length = 1 ∧
        ∀ record ∈ pending, (totalValue record).isSome :=
    ⟨_, rfl, rfl, fun record hrecord => by
      rw [mem_singleton.mp hrecord]
      rfl⟩
  refine ⟨pending, hpending, hlength,
    (accepted_upload_consumed_iff hpending 100 (fun _ => 0) SymbolDb.new).mpr ⟨fun _ => ?_, htotal⟩⟩
  intro location hlocation line hline
  obtain rfl := mem_singleton.mp hlocation
  obtain rfl := mem_singleton.mp hline
  decide

/-- A line number of 2^31 is accepted, and neither consumer can take the record. -/
theorem accepted_upload_stops_consumers :
    ∃ pending, acceptUpload openSettings (lineUpload 2147483648) = .ok pending ∧
      pending ≠ [] ∧ ∀ size partition db, ¬ Succeeds (flushRecords size partition pending) ∧
        ¬ Succeeds (applyRecords db pending) := by
  obtain ⟨pending, hpending, record, hrecord, hlines⟩ : ∃ pending,
      acceptUpload openSettings (lineUpload 2147483648) = .ok pending ∧
        ∃ record ∈ pending, ¬ LinesFit record.symbols :=
    ⟨_, rfl, _, mem_cons_self, by decide +kernel⟩
  have htyped := fun record hrecord => (acceptUpload_ok hpending record hrecord).1
  refine ⟨pending, hpending, ne_nil_of_mem hrecord, fun size partition db => ⟨?_, ?_⟩⟩
  · rw [succeeds_flushRecords htyped]
    exact fun hall => hlines (hall record hrecord).1
  · rw [applyRecords, succeeds_foldlM succeeds_consumeRecord]
    exact fun hall => hlines (hall record hrecord).1

end KrabkaO11y.Profiles
