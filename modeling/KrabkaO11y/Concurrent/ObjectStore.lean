import KrabkaO11y.Concurrent.Prog

/-!
A linearizable object store: a map from keys to objects with a version and a
modification time, conditional writes and a clock.

Every operation is one atomic step. An operation may be refused, or applied with its
answer lost; both reach the caller as a failure.
-/

namespace KrabkaO11y.ObjectStore

/-- A stored object. Every write gives it a fresh version and the time of the write. -/
structure Object (ν : Type) where
  value : ν
  version : Nat
  modified : Nat
deriving DecidableEq, Repr

/-- What a listing says about an object. -/
structure ObjectMeta (κ : Type) where
  location : κ
  version : Nat
  modified : Nat
  size : Nat
deriving DecidableEq, Repr

structure Store (κ ν : Type) where
  objects : AList fun _ : κ => Object ν := ∅
  /-- Nanoseconds since the epoch. -/
  clock : Nat := 0
  /-- Versions handed out so far. -/
  versions : Nat := 0

/-- The operations. A conditional create may carry a deadline, past which it is
abandoned. -/
inductive Op (κ ν : Type) where
  | list (within : κ → Bool)
  | get (key : κ)
  | head (key : κ)
  | put (key : κ) (value : ν)
  | create (key : κ) (value : ν) (deadline : Option Nat)
  | update (key : κ) (value : ν) (version : Nat)
  | delete (key : κ)
  | now

/-- The outcome of a conditional create. -/
inductive Created where
  | created
  | alreadyExists
  | expired
deriving DecidableEq, Repr

/-- A failure of the store. -/
inductive Failure where
  | failure
deriving DecidableEq, Repr

/-- The answer of an operation that the store carried out. -/
def Answer (κ ν : Type) : Op κ ν → Type
  | .list _ => List (ObjectMeta κ)
  | .get _ => Option (ν × ObjectMeta κ)
  | .head _ => Option (ObjectMeta κ)
  | .put _ _ => Unit
  | .create _ _ _ => Created
  | .update _ _ _ => Bool
  | .delete _ => Bool
  | .now => Nat

/-- What the caller sees. -/
def Result (κ ν : Type) (op : Op κ ν) : Type := Except Failure (Answer κ ν op)

/-- How the store treats an operation. -/
inductive Outcome where
  | ok
  | refused
  | lost
deriving DecidableEq, Repr

namespace Store

variable {κ ν : Type} [DecidableEq κ]

/-- The object under a key. -/
def lookup (s : Store κ ν) (key : κ) : Option (Object ν) := s.objects.lookup key

/-- Writes `value` under `key`. -/
def write (s : Store κ ν) (key : κ) (value : ν) : Store κ ν :=
  { s with
    objects := s.objects.insert key ⟨value, s.versions, s.clock⟩
    versions := s.versions + 1 }

/-- Removes the object under `key`. -/
def erase (s : Store κ ν) (key : κ) : Store κ ν := { s with objects := s.objects.erase key }

/-- What a listing says about the object under `key`. -/
def metaOf (size : ν → Nat) (key : κ) (object : Object ν) : ObjectMeta κ :=
  ⟨key, object.version, object.modified, size object.value⟩

/-- The objects whose keys lie `within`. -/
def listing (s : Store κ ν) (size : ν → Nat) (within : κ → Bool) : List (ObjectMeta κ) :=
  (s.objects.entries.filter fun entry => within entry.1).map
    fun entry => metaOf size entry.1 entry.2

/-- Carries out one operation. -/
def apply (size : ν → Nat) (s : Store κ ν) : (op : Op κ ν) → Answer κ ν op × Store κ ν
  | .list within => (s.listing size within, s)
  | .get key => ((s.lookup key).map fun object => (object.value, metaOf size key object), s)
  | .head key => ((s.lookup key).map (metaOf size key), s)
  | .put key value => ((), s.write key value)
  | .create key value deadline =>
    if ∃ at? ∈ deadline, at? < s.clock then (.expired, s)
    else if (s.lookup key).isSome then (.alreadyExists, s)
    else (.created, s.write key value)
  | .update key value version =>
    if (s.lookup key).any (fun object => object.version = version) then (true, s.write key value)
    else (false, s)
  | .delete key => ((s.lookup key).isSome, s.erase key)
  | .now => (s.clock, s)

/-- One operation under an outcome. -/
def answer (size : ν → Nat) (outcome : Outcome) (op : Op κ ν) (s : Store κ ν) :
    Result κ ν op × Store κ ν :=
  match outcome with
  | .ok => (.ok (s.apply size op).1, (s.apply size op).2)
  | .refused => (.error .failure, s)
  | .lost => (.error .failure, (s.apply size op).2)

section Lookup

variable {s : Store κ ν} {key other : κ} {value : ν}

theorem lookup_write : (s.write key value).lookup other =
    if other = key then some ⟨value, s.versions, s.clock⟩ else s.lookup other := by
  split
  · rename_i h; subst h; exact AList.lookup_insert _
  · rename_i h; exact AList.lookup_insert_ne h

theorem lookup_erase : (s.erase key).lookup other =
    if other = key then none else s.lookup other := by
  split
  · rename_i h; subst h; exact AList.lookup_erase _ _
  · rename_i h; exact AList.lookup_erase_ne h

variable {within : κ → Bool} {size : ν → Nat}

/-- A listing names exactly the objects that are there. -/
theorem mem_listing {m : ObjectMeta κ} :
    m ∈ s.listing size within ↔
      within m.location = true ∧
        ∃ object, s.lookup m.location = some object ∧ m = metaOf size m.location object := by
  have hmem : ∀ (k : κ) (o : Object ν), (⟨k, o⟩ : Sigma fun _ => Object ν) ∈ s.objects.entries ↔
      s.lookup k = some o := fun k o => (AList.mem_lookup_iff).symm
  simp only [listing, List.mem_map, List.mem_filter]
  constructor
  · rintro ⟨⟨k, o⟩, ⟨he, hw⟩, rfl⟩
    exact ⟨hw, o, (hmem k o).mp he, rfl⟩
  · rintro ⟨hw, o, hlk, hm⟩
    exact ⟨⟨m.location, o⟩, ⟨(hmem _ o).mpr hlk, hw⟩, hm.symm⟩

omit [DecidableEq κ] in
theorem nodup_listing :
    ((s.listing size within).map (·.location)).Nodup := by
  rw [listing, List.map_map]
  have hks : (s.objects.entries.map Sigma.fst).Nodup := s.objects.nodupKeys
  exact hks.sublist (List.filter_sublist.map _)

end Lookup

section Shrinks

/-- Objects may be gone and nothing else changed. -/
def Shrinks (s s' : Store κ ν) : Prop := s'.objects.entries.Sublist s.objects.entries

variable {s s' s'' : Store κ ν} {size : ν → Nat}

omit [DecidableEq κ] in
theorem Shrinks.refl (s : Store κ ν) : s.Shrinks s := List.Sublist.refl _

omit [DecidableEq κ] in
theorem Shrinks.trans (h : s.Shrinks s') (h' : s'.Shrinks s'') : s.Shrinks s'' :=
  List.Sublist.trans h' h

theorem shrinks_erase (key : κ) : s.Shrinks (s.erase key) := List.kerase_sublist _ _

theorem Shrinks.lookup (h : s.Shrinks s') {key : κ} {object : Object ν}
    (hlookup : s'.lookup key = some object) : s.lookup key = some object :=
  AList.mem_lookup_iff.mpr (h.subset (AList.mem_lookup_iff.mp hlookup))

omit [DecidableEq κ] in
theorem Shrinks.listing (h : s.Shrinks s') (within : κ → Bool) :
    (s'.listing size within).Sublist (s.listing size within) :=
  (List.Sublist.filter _ h).map _

/-- A write lists its object before what the erasure of its key would leave. -/
theorem listing_write (key : κ) (value : ν) :
    (s.write key value).listing size (fun _ => true) =
      metaOf size key ⟨value, s.versions, s.clock⟩ :: (s.erase key).listing size fun _ => true := by
  simp only [Store.listing, write, AList.entries_insert, List.filter_true, List.map_cons]
  rfl

/-- An erasure takes its object out of the listing. -/
theorem perm_listing_erase {m : ObjectMeta κ} {rest : List (ObjectMeta κ)}
    (h : (s.listing size fun _ => true).Perm (m :: rest)) :
    ((s.erase m.location).listing size fun _ => true).Perm rest := by
  have hnd : (m.location :: rest.map (·.location)).Nodup :=
    (h.map ObjectMeta.location).nodup_iff.mp nodup_listing
  obtain ⟨hm, hr⟩ := List.nodup_cons.mp hnd
  refine (List.perm_ext_iff_of_nodup (.of_map _ nodup_listing) (.of_map _ hr)).mpr fun x => ?_
  have hx : x ∈ s.listing size (fun _ => true) ↔ x = m ∨ x ∈ rest :=
    h.mem_iff.trans List.mem_cons
  rw [mem_listing] at hx ⊢
  rw [lookup_erase]
  by_cases hloc : x.location = m.location
  · have hout : x ∉ rest := fun hin => hm (hloc ▸ List.mem_map_of_mem hin)
    simp [hloc, hout]
  · have hne : x ≠ m := fun heq => hloc (congrArg _ heq)
    rw [if_neg hloc, hx]
    exact ⟨fun hin => hin.resolve_left hne, Or.inr⟩

end Shrinks

end Store

end KrabkaO11y.ObjectStore
