import Mathlib

/-!
Lists with one element for each key, built by folding elements in one at a time: an element
is absorbed by the one that has its key, or appended.

`Gathered` says what such a list holds of the elements folded in so far, whatever their
order: each key once, and for each key an element with a property of all of them. A property
that absorbing and unrelated elements keep holds of the whole fold.
-/

namespace KrabkaO11y.Collections

open List

variable {α κ : Type*} [DecidableEq κ] (key : α → κ) (absorb : α → α → α)

/-- Folds an element into the first one that has its key, or appends it. -/
def upsert (x : α) : List α → List α
  | [] => [x]
  | y :: ys => if key y = key x then absorb y x :: ys else y :: upsert x ys

def upsertAll (ys xs : List α) : List α := xs.foldl (fun ys x => upsert key absorb x ys) ys

variable {key absorb}

section Upsert

variable (habsorb : ∀ y x, key (absorb y x) = key y)
include habsorb

theorem map_key_upsert (x : α) (ys : List α) :
    (upsert key absorb x ys).map key =
      if key x ∈ ys.map key then ys.map key else ys.map key ++ [key x] := by
  induction ys with
  | nil => simp [upsert]
  | cons y ys ih =>
    rw [upsert]
    by_cases h : key y = key x
    · simp [h, habsorb]
    · rw [if_neg h, map_cons, ih]
      by_cases hmem : key x ∈ ys.map key
      · rw [if_pos hmem, map_cons, if_pos (mem_cons_of_mem _ hmem)]
      · have hnot : key x ∉ (y :: ys).map key := by
          rw [map_cons, mem_cons]
          exact fun hor => hor.elim (fun heq => h heq.symm) hmem
        rw [if_neg hmem, if_neg hnot, map_cons, cons_append]

theorem mem_map_key_upsert {x : α} {ys : List α} {k : κ} :
    k ∈ (upsert key absorb x ys).map key ↔ k ∈ ys.map key ∨ k = key x := by
  rw [map_key_upsert habsorb]
  split
  · rename_i h
    exact ⟨.inl, fun hor => hor.elim id fun heq => heq ▸ h⟩
  · rw [mem_append, mem_singleton]

theorem nodup_upsert {x : α} {ys : List α} (h : (ys.map key).Nodup) :
    ((upsert key absorb x ys).map key).Nodup := by
  rw [map_key_upsert habsorb]
  split
  · exact h
  · rename_i hnot
    exact h.append (nodup_singleton _) (disjoint_singleton.mpr hnot)

omit habsorb in
/-- An element of the result is an old one with another key, an old one that absorbed the
new, or the new one. -/
theorem mem_upsert {x z : α} {ys : List α} (nodup : (ys.map key).Nodup)
    (h : z ∈ upsert key absorb x ys) :
    (z ∈ ys ∧ key z ≠ key x) ∨ (∃ y ∈ ys, key y = key x ∧ z = absorb y x) ∨
      z = x ∧ key x ∉ ys.map key := by
  induction ys with
  | nil => exact .inr (.inr ⟨mem_singleton.mp h, not_mem_nil⟩)
  | cons y ys ih =>
    obtain ⟨hy, hys⟩ := nodup_cons.mp nodup
    rw [upsert] at h
    split at h
    · rename_i heq
      rcases mem_cons.mp h with rfl | hz
      · exact .inr (.inl ⟨y, mem_cons_self, heq, rfl⟩)
      · refine .inl ⟨mem_cons_of_mem _ hz, fun hkey => hy ?_⟩
        rw [heq, ← hkey]
        exact mem_map_of_mem hz
    · rename_i hne
      rcases mem_cons.mp h with rfl | hz
      · exact .inl ⟨mem_cons_self, hne⟩
      · rcases ih hys hz with ⟨hz, hkey⟩ | ⟨y', hy', hkey, rfl⟩ | ⟨rfl, hnot⟩
        · exact .inl ⟨mem_cons_of_mem _ hz, hkey⟩
        · exact .inr (.inl ⟨y', mem_cons_of_mem _ hy', hkey, rfl⟩)
        · refine .inr (.inr ⟨rfl, ?_⟩)
          rw [map_cons, mem_cons]
          exact fun hor => hor.elim (fun heq => hne heq.symm) hnot

/-- Elements of different keys lengthen the list by those whose key is new. -/
theorem length_upsertAll {xs : List α} : ∀ {ys : List α}, (xs.map key).Nodup →
    (upsertAll key absorb ys xs).length + (xs.filter fun x => key x ∈ ys.map key).length =
      ys.length + xs.length := by
  induction xs with
  | nil => exact fun _ => rfl
  | cons x xs ih =>
    intro ys hnd
    obtain ⟨hx, hxs⟩ := nodup_cons.mp hnd
    have hr := @ih (upsert key absorb x ys) hxs
    have hlen : (upsert key absorb x ys).length =
        if key x ∈ ys.map key then ys.length else ys.length + 1 := by
      rw [← length_map (f := key), map_key_upsert habsorb]
      split
      · exact length_map ..
      · rw [length_append, length_map, length_singleton]
    have hfil : (xs.filter fun x' => key x' ∈ (upsert key absorb x ys).map key) =
        xs.filter fun x' => key x' ∈ ys.map key := by
      refine filter_congr fun x' hx' => ?_
      have hne : key x' ≠ key x := fun heq => hx (heq ▸ mem_map_of_mem hx')
      rw [decide_eq_decide, mem_map_key_upsert habsorb]
      exact ⟨fun hor => hor.resolve_right hne, .inl⟩
    rw [hfil, hlen] at hr
    change (upsertAll key absorb (upsert key absorb x ys) xs).length + _ = _
    rw [filter_cons, length_cons]
    by_cases hmem : key x ∈ ys.map key
    · rw [if_pos hmem] at hr
      rw [if_pos (decide_eq_true hmem), length_cons]
      omega
    · rw [if_neg hmem] at hr
      rw [if_neg (by simpa using hmem)]
      omega

end Upsert

/-- Where a key has one element, the elements of the key are that one. -/
theorem filter_key_eq {xs : List α} (fresh : (xs.map key).Nodup) {x : α} (hx : x ∈ xs) :
    xs.filter (key · = key x) = [x] := by
  obtain ⟨front, back, rfl⟩ := append_of_mem hx
  rw [map_append, map_cons, nodup_middle, nodup_cons, mem_append, mem_map, mem_map] at fresh
  rw [filter_append, filter_cons_of_pos (by simp),
    filter_eq_nil_iff.mpr fun y hy heq => fresh.1 (.inl ⟨y, hy, by simpa using heq⟩),
    filter_eq_nil_iff.mpr fun y hy heq => fresh.1 (.inr ⟨y, hy, by simpa using heq⟩)]
  rfl

/-! ### What a fold gathers -/

variable (key) in
/-- A list holds each key of some elements once, with a property of all of them. -/
structure Gathered (P : List α → α → Prop) (xs ys : List α) : Prop where
  nodup : (ys.map key).Nodup
  keys : ∀ k, k ∈ ys.map key ↔ k ∈ xs.map key
  each : ∀ y ∈ ys, P xs y

variable {P : List α → α → Prop} {xs ys : List α}

omit [DecidableEq κ] in
theorem gathered_nil : Gathered key P [] [] :=
  ⟨nodup_nil, fun _ => Iff.rfl, nofun⟩

omit [DecidableEq κ] in
/-- The elements of a gathered list may be reordered. -/
theorem Gathered.perm {ys' : List α} (h : Gathered key P xs ys) (hperm : ys'.Perm ys) :
    Gathered key P xs ys' :=
  ⟨(hperm.map key).nodup_iff.mpr h.nodup, fun k => (hperm.map key).mem_iff.trans (h.keys k),
    fun y hy => h.each y (hperm.mem_iff.mp hy)⟩

/-- What a property needs to pass from some elements to one more that is good. -/
structure Absorbs (key : α → κ) (absorb : α → α → α) (good : α → Prop)
    (P : List α → α → Prop) : Prop where
  key_absorb : ∀ y x, key (absorb y x) = key y
  absorbs : ∀ {xs y x}, good x → P xs y → key y = key x → P (xs ++ [x]) (absorb y x)
  appends : ∀ {xs x}, good x → key x ∉ xs.map key → P (xs ++ [x]) x
  frames : ∀ {xs y x}, P xs y → key y ≠ key x → P (xs ++ [x]) y

variable {good : α → Prop}

theorem Gathered.upsert (hP : Absorbs key absorb good P) (h : Gathered key P xs ys) {x : α}
    (hx : good x) : Gathered key P (xs ++ [x]) (upsert key absorb x ys) := by
  refine ⟨nodup_upsert hP.key_absorb h.nodup, fun k => ?_, fun z hz => ?_⟩
  · rw [mem_map_key_upsert hP.key_absorb, h.keys, map_append, mem_append]
    exact or_congr_right mem_singleton.symm
  · rcases mem_upsert h.nodup hz with ⟨hz, hne⟩ | ⟨y, hy, heq, rfl⟩ | ⟨rfl, hnot⟩
    · exact hP.frames (h.each z hz) hne
    · exact hP.absorbs hx (h.each y hy) heq
    · exact hP.appends hx fun hmem => hnot ((h.keys _).mpr hmem)

/-- Folding good elements in gathers them too. -/
theorem Gathered.upsertAll (hP : Absorbs key absorb good P) {zs : List α} :
    ∀ {xs ys : List α}, Gathered key P xs ys → (∀ z ∈ zs, good z) →
      Gathered key P (xs ++ zs) (upsertAll key absorb ys zs) := by
  induction zs with
  | nil =>
    intro xs ys h _
    rw [append_nil]
    exact h
  | cons z zs ih =>
    intro xs ys h hgo
    rw [append_cons]
    exact ih (h.upsert hP (hgo z mem_cons_self)) fun z' hz' =>
      hgo z' (mem_cons_of_mem _ hz')

omit [DecidableEq κ] in
/-- Lists gathered from the same keys hold the same keys. -/
theorem Gathered.keys_perm {xs' ys' : List α} (h : Gathered key P xs ys)
    (h' : Gathered key P xs' ys') (hkeys : ∀ k, k ∈ xs.map key ↔ k ∈ xs'.map key) :
    (ys.map key).Perm (ys'.map key) :=
  (perm_ext_iff_of_nodup h.nodup h'.nodup).mpr fun k =>
    (h.keys k).trans ((hkeys k).trans (h'.keys k).symm)

variable {ρ β σ : Type*} {name : ρ → κ} {value : ρ → β} {apply : σ → ρ → σ}

/-- The last of some records that has a key. -/
def lastOf (name : ρ → κ) (k : κ) (records : List ρ) : Option ρ :=
  records.reverse.find? (name · = k)

/-- Where every record overwrites what is read at its key, what is read in the end depends on
the last record of the key. -/
theorem read_foldl_eq (read : σ → β) {k : κ}
    (hset : ∀ s r, read (apply s r) = if name r = k then value r else read s) (s : σ)
    {records others : List ρ} (h : lastOf name k records = lastOf name k others) :
    read (records.foldl apply s) = read (others.foldl apply s) := by
  have hl (records : List ρ) :
      read (records.foldl apply s) = (lastOf name k records).elim (read s) value := by
    induction records using reverseRecOn with
    | nil => rfl
    | append_singleton records r ih =>
      rw [foldl_append, foldl_cons, foldl_nil, hset, ih, lastOf, lastOf, reverse_concat, find?_cons]
      by_cases hk : name r = k <;> simp [hk]
  rw [hl, h, ← hl]

end KrabkaO11y.Collections
