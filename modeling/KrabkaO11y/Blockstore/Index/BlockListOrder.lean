import KrabkaO11y.Blockstore.Index.BlockList

/-!
The time order of a block list and the columns derived from it.

`refresh_from` recomputes the columns from an index on and relies on everything
before it being right already. `Columns l n` says that the first `n` positions
are right; `refreshFrom_columns` turns it into `Columns l l.order.length`, and
`detach` and `attach` are specified by what they do to the order alone.
-/

open Std (ExtTreeMap ExtTreeSet)

namespace KrabkaO11y.Blockstore.BlockList

open List

/-- The running maximum of the ends over the first `n` blocks of the order. -/
def endsMax (l : BlockList) (n : Nat) : Int64 :=
  (l.order.take n).foldl (fun acc ordinal => max acc (l.entry ordinal).maxTs) Int64.minValue

/-- The columns have the order's length, and their first `n` positions are right. -/
structure Columns (l : BlockList) (n : Nat) : Prop where
  starts_len : l.minStart.length = l.order.length
  ends_len : l.maxEnd.length = l.order.length
  start : ∀ i < n, l.minStart.getD i 0 = (l.entry (l.order.getD i 0)).minTs
  stop : ∀ i < n, l.maxEnd.getD i 0 = l.endsMax (i + 1)
  place : ∀ i < n, l.position.getD (l.order.getD i 0) none = some i

/-- The order is a set of ordinals that the entries and the position map have. -/
structure Placed (l : BlockList) : Prop where
  nodup : l.order.Nodup
  lt : ∀ ordinal ∈ l.order, ordinal < l.entries.length
  len : l.position.length = l.entries.length
  absent : ∀ ordinal, ordinal ∉ l.order → l.position.getD ordinal none = none

/-! ### One turn of the refresh loop -/

section Refresh

variable {l : BlockList} {n : Nat}

@[simp] theorem refreshIndex_entries : (l.refreshIndex n).entries = l.entries := rfl
@[simp] theorem refreshIndex_live : (l.refreshIndex n).live = l.live := rfl
@[simp] theorem refreshIndex_byKey : (l.refreshIndex n).byKey = l.byKey := rfl
@[simp] theorem refreshIndex_postings : (l.refreshIndex n).postings = l.postings := rfl
@[simp] theorem refreshIndex_order : (l.refreshIndex n).order = l.order := rfl
@[simp] theorem refreshIndex_dead : (l.refreshIndex n).dead = l.dead := rfl
@[simp] theorem refreshIndex_entry (o : Nat) : (l.refreshIndex n).entry o = l.entry o := rfl
@[simp] theorem refreshIndex_endsMax (i : Nat) : (l.refreshIndex n).endsMax i = l.endsMax i := rfl

variable {α : Type} {xs : List α}

theorem getD_set {i j : Nat} {a d : α} (h : i < xs.length) :
    (xs.set i a).getD j d = if i = j then a else xs.getD j d := by
  simp only [getD_eq_getElem?_getD, getElem?_set, h, if_true]
  split <;> rfl

theorem endsMax_succ (h : n < l.order.length) :
    l.endsMax (n + 1) = max (l.endsMax n) (l.entry (l.order.getD n 0)).maxTs := by
  rw [endsMax, take_succ_eq_append_getElem h, foldl_append, getD_eq_getElem _ _ h]
  rfl

theorem Placed.refreshIndex (hp : Placed l) (hn : n < l.order.length) :
    Placed (l.refreshIndex n) where
  nodup := hp.nodup
  lt := hp.lt
  len := by simp [BlockList.refreshIndex, hp.len]
  absent := by
    intro ordinal hout
    have hmem : l.order.getD n 0 ∈ l.order := by
      rw [getD_eq_getElem _ _ hn]; exact getElem_mem hn
    have hne : l.order.getD n 0 ≠ ordinal := fun h => hout (h ▸ hmem)
    simp only [BlockList.refreshIndex]
    rw [getD_set (by rw [hp.len]; exact hp.lt _ hmem), if_neg hne]
    exact hp.absent ordinal hout

/-- A turn at the first unverified position makes one more position right. -/
theorem Columns.refreshIndex (hc : Columns l n) (hp : Placed l) (hn : n < l.order.length) :
    Columns (l.refreshIndex n) (n + 1) where
  starts_len := by simp [BlockList.refreshIndex, hc.starts_len]
  ends_len := by simp [BlockList.refreshIndex, hc.ends_len]
  start := by
    intro i hi
    simp only [BlockList.refreshIndex]
    rw [getD_set (by rw [hc.starts_len]; exact hn)]
    split
    · rename_i h; subst h; rfl
    · exact hc.start i (by omega)
  stop := by
    intro i hi
    change (l.maxEnd.set n _).getD i 0 = l.endsMax (i + 1)
    rw [getD_set (by rw [hc.ends_len]; exact hn)]
    split
    · rename_i h
      subst h
      rw [endsMax_succ hn]
      split
      · rename_i h0; subst h0; rfl
      · rename_i h0
        rw [hc.stop (n - 1) (by omega), Nat.sub_add_cancel (by omega)]
    · exact hc.stop i (by omega)
  place := by
    intro i hi
    have hmem : l.order.getD n 0 ∈ l.order := by
      rw [getD_eq_getElem _ _ hn]; exact getElem_mem hn
    simp only [BlockList.refreshIndex]
    rw [getD_set (by rw [hp.len]; exact hp.lt _ hmem)]
    split
    · rename_i h
      rw [getD_eq_getElem _ _ hn, getD_eq_getElem _ _ (by omega)] at h
      rw [(hp.nodup.getElem_inj_iff).mp h]
    · rename_i h
      refine hc.place i ?_
      rcases Nat.lt_or_eq_of_le (Nat.le_of_lt_succ hi) with hlt | rfl
      · exact hlt
      · exact absurd rfl h

/-! ### The whole loop -/

theorem foldl_refreshIndex_columns {k : Nat} :
    ∀ {l : BlockList} {n : Nat}, Columns l n → Placed l → n + k = l.order.length →
      Columns ((List.range' n k).foldl refreshIndex l) (n + k) ∧
        Placed ((List.range' n k).foldl refreshIndex l) := by
  induction k with
  | zero => intro l n hc hp _; exact ⟨hc, hp⟩
  | succ k ih =>
    intro l n hc hp hlen
    have hn : n < l.order.length := by omega
    have := ih (hc.refreshIndex hp hn) (hp.refreshIndex hn) (by simp; omega)
    simpa [range'_succ, Nat.add_right_comm, Nat.add_assoc] using this

/-- The loop touches only the three derived columns. -/
theorem foldl_refreshIndex_frame (is : List Nat) : ∀ l : BlockList,
    (is.foldl refreshIndex l).entries = l.entries ∧ (is.foldl refreshIndex l).live = l.live ∧
      (is.foldl refreshIndex l).byKey = l.byKey ∧
      (is.foldl refreshIndex l).postings = l.postings ∧
      (is.foldl refreshIndex l).order = l.order ∧ (is.foldl refreshIndex l).dead = l.dead := by
  induction is with
  | nil => intro l; exact ⟨rfl, rfl, rfl, rfl, rfl, rfl⟩
  | cons i is ih => intro l; simpa using ih (l.refreshIndex i)

variable (l n)

@[simp] theorem refreshFrom_entries : (l.refreshFrom n).entries = l.entries :=
  (foldl_refreshIndex_frame _ _).1
@[simp] theorem refreshFrom_live : (l.refreshFrom n).live = l.live :=
  (foldl_refreshIndex_frame _ _).2.1
@[simp] theorem refreshFrom_byKey : (l.refreshFrom n).byKey = l.byKey :=
  (foldl_refreshIndex_frame _ _).2.2.1
@[simp] theorem refreshFrom_postings : (l.refreshFrom n).postings = l.postings :=
  (foldl_refreshIndex_frame _ _).2.2.2.1
@[simp] theorem refreshFrom_order : (l.refreshFrom n).order = l.order :=
  (foldl_refreshIndex_frame _ _).2.2.2.2.1
@[simp] theorem refreshFrom_dead : (l.refreshFrom n).dead = l.dead :=
  (foldl_refreshIndex_frame _ _).2.2.2.2.2
@[simp] theorem refreshFrom_entry (o : Nat) : (l.refreshFrom n).entry o = l.entry o := by
  simp [entry]

variable {l n}

theorem vecResize_length (xs : List α) (len : Nat) (fill : α) :
    (vecResize xs len fill).length = len := by
  simp only [vecResize, length_append, length_take, length_replicate]
  omega

theorem vecResize_getD {len i : Nat} {fill d : α}
    (hi : i < xs.length) (hlen : i < len) : (vecResize xs len fill).getD i d = xs.getD i d := by
  have hta : i < (xs.take len).length := by rw [length_take]; omega
  simp only [vecResize, getD_eq_getElem?_getD, getElem?_append_left hta,
    getElem?_take, hlen, if_true]

/-- From columns that are right before `start`, a refresh makes every column right.
The columns may still have the length of an earlier order. -/
theorem refreshFrom_columns (hp : Placed l) (start : Nat) (hstart : start ≤ l.order.length)
    (hs : start ≤ l.minStart.length) (he : start ≤ l.maxEnd.length)
    (hsta : ∀ i < start, l.minStart.getD i 0 = (l.entry (l.order.getD i 0)).minTs)
    (ends : ∀ i < start, l.maxEnd.getD i 0 = l.endsMax (i + 1))
    (hplace : ∀ i < start, l.position.getD (l.order.getD i 0) none = some i) :
    Columns (l.refreshFrom start) l.order.length ∧ Placed (l.refreshFrom start) := by
  have hre : Columns
      { l with
        minStart := vecResize l.minStart l.order.length Int64.minValue
        maxEnd := vecResize l.maxEnd l.order.length Int64.minValue } start :=
    { starts_len := vecResize_length _ _ _
      ends_len := vecResize_length _ _ _
      start := fun i hi => by
        rw [vecResize_getD (by omega) (by omega)]; exact hsta i hi
      stop := fun i hi => by
        rw [vecResize_getD (by omega) (by omega)]; exact ends i hi
      place := hplace }
  have hlo := foldl_refreshIndex_columns (k := l.order.length - start) hre
    ⟨hp.nodup, hp.lt, hp.len, hp.absent⟩ (by simp; omega)
  simpa [refreshFrom, Nat.add_sub_cancel' hstart] using hlo

end Refresh

/-! ### Detach and attach -/

section Detach

variable {l : BlockList} {p : Nat}

@[simp] theorem detach_entries (o : Nat) : (l.detach o).2.entries = l.entries := by
  unfold detach; split <;> simp
@[simp] theorem detach_live (o : Nat) : (l.detach o).2.live = l.live := by
  unfold detach; split <;> simp
@[simp] theorem detach_byKey (o : Nat) : (l.detach o).2.byKey = l.byKey := by
  unfold detach; split <;> simp
@[simp] theorem detach_postings (o : Nat) : (l.detach o).2.postings = l.postings := by
  unfold detach; split <;> simp
@[simp] theorem detach_entry (o o' : Nat) : (l.detach o).2.entry o' = l.entry o' := by
  simp [entry]

@[simp] theorem attach_entries (o : Nat) : (l.attach o).entries = l.entries := by simp [attach]
@[simp] theorem attach_live (o : Nat) : (l.attach o).live = l.live := by simp [attach]
@[simp] theorem attach_byKey (o : Nat) : (l.attach o).byKey = l.byKey := by simp [attach]
@[simp] theorem attach_postings (o : Nat) : (l.attach o).postings = l.postings := by simp [attach]
@[simp] theorem attach_entry (o o' : Nat) : (l.attach o).entry o' = l.entry o' := by simp [entry]

theorem getD_eraseIdx_of_lt {xs : List Nat} {i : Nat} (h : i < p) :
    (xs.eraseIdx p).getD i 0 = xs.getD i 0 := by
  simp [getD_eq_getElem?_getD, getElem?_eraseIdx_of_lt h]

theorem getD_mem_order {i : Nat} (h : i < l.order.length) : l.order.getD i 0 ∈ l.order := by
  rw [getD_eq_getElem _ _ h]; exact getElem_mem h

/-- Detaching the block at `p` needs the columns right only before `p`: that is what
lets `insert` rewrite an entry's bounds before it moves the entry. -/
theorem detach_spec (hp : Placed l) (hlt : p < l.order.length) (hc : Columns l p)
    (hpos : l.position.getD (l.order.getD p 0) none = some p) :
    (l.detach (l.order.getD p 0)).2.order = l.order.eraseIdx p ∧
      Columns (l.detach (l.order.getD p 0)).2 (l.order.eraseIdx p).length ∧
      Placed (l.detach (l.order.getD p 0)).2 := by
  set o := l.order.getD p 0 with ho
  have hmem : o ∈ l.order := getD_mem_order hlt
  have hlen : o < l.position.length := by rw [hp.len]; exact hp.lt o hmem
  have hno : o ∉ l.order.eraseIdx p := by
    rw [ho, getD_eq_getElem _ _ hlt, ← List.Nodup.erase_getElem hp.nodup]
    exact hp.nodup.not_mem_erase
  have hcut : Placed { l with order := l.order.eraseIdx p, position := l.position.set o none } :=
    { nodup := hp.nodup.sublist (eraseIdx_sublist _ _)
      lt := fun o' h => hp.lt o' (mem_of_mem_eraseIdx h)
      len := by simp [hp.len]
      absent := by
        intro o' hout
        simp only [getD_set hlen]
        split
        · rfl
        · rename_i hne
          refine hp.absent o' fun hin => hout ?_
          rw [mem_eraseIdx_iff_getElem]
          obtain ⟨i, hi, rfl⟩ := getElem_of_mem hin
          refine ⟨i, hi, fun h => hne ?_, rfl⟩
          subst h
          rw [ho, getD_eq_getElem _ _ hlt] }
  have hle : p ≤ (l.order.eraseIdx p).length := by
    rw [length_eraseIdx_of_lt hlt]; omega
  have hre := refreshFrom_columns hcut p hle
    (by simp [hc.starts_len]; omega) (by simp [hc.ends_len]; omega)
    (fun i hi => by
      change _ = (l.entry ((l.order.eraseIdx p).getD i 0)).minTs
      rw [getD_eraseIdx_of_lt hi]
      exact hc.start i hi)
    (fun i hi => by
      have hta : (l.order.eraseIdx p).take (i + 1) = l.order.take (i + 1) := by
        rw [eraseIdx_eq_take_drop_succ, take_append_of_le_length (by simp; omega),
          take_take, Nat.min_eq_left (by omega)]
      rw [hc.stop i hi, endsMax, endsMax, hta]
      rfl)
    (fun i hi => by
      have hne : o ≠ l.order.getD i 0 := by
        intro h
        have := hc.place i hi
        rw [← h, hpos] at this
        simp only [Option.some.injEq] at this
        omega
      change (l.position.set o none).getD ((l.order.eraseIdx p).getD i 0) none = some i
      rw [getD_eraseIdx_of_lt hi, getD_set hlen, if_neg hne]
      exact hc.place i hi)
  simp only [detach, hpos]
  exact ⟨refreshFrom_order _ _, hre⟩

end Detach

section Attach

variable {l : BlockList} {o : Nat}

/-- Where `attach` puts the ordinal: after every block that sorts before it. -/
def attachPosition (l : BlockList) (o : Nat) : Nat :=
  (l.order.takeWhile fun other => decide ((l.entry other).orderKey < (l.entry o).orderKey)).length

theorem attachPosition_le : l.attachPosition o ≤ l.order.length :=
  (takeWhile_sublist _).length_le

theorem attach_order : (l.attach o).order = l.order.insertIdx (l.attachPosition o) o := by
  simp [attach, attachPosition]

theorem mem_attach_order {o' : Nat} : o' ∈ (l.attach o).order ↔ o' = o ∨ o' ∈ l.order := by
  rw [attach_order, mem_insertIdx attachPosition_le]

theorem attach_spec (hp : Placed l) (hlt : o < l.entries.length) (hout : o ∉ l.order)
    (hc : Columns l l.order.length) :
    Columns (l.attach o) (l.attach o).order.length ∧ Placed (l.attach o) := by
  set p := l.attachPosition o with hpd
  have hle : p ≤ l.order.length := attachPosition_le
  have hgw : Placed { l with order := l.order.insertIdx p o } :=
    { nodup := by
        rw [(perm_insertIdx o l.order hle).nodup_iff, nodup_cons]
        exact ⟨hout, hp.nodup⟩
      lt := by
        intro o' h
        rcases (mem_insertIdx hle).mp h with rfl | h
        · exact hlt
        · exact hp.lt o' h
      len := hp.len
      absent := fun o' h => hp.absent o' fun hin => h ((mem_insertIdx hle).mpr (.inr hin)) }
  have hget : ∀ i < p, (l.order.insertIdx p o).getD i 0 = l.order.getD i 0 := fun i hi => by
    simp [getD_eq_getElem?_getD, getElem?_insertIdx_of_lt hi]
  have hre := refreshFrom_columns hgw p
    (by rw [length_insertIdx_of_le_length hle]; omega)
    (by simp [hc.starts_len, hle]) (by simp [hc.ends_len, hle])
    (fun i hi => by
      change _ = (l.entry ((l.order.insertIdx p o).getD i 0)).minTs
      rw [hget i hi]
      exact hc.start i (by omega))
    (fun i hi => by
      have hta : (l.order.insertIdx p o).take (i + 1) = l.order.take (i + 1) :=
        take_insertIdx_eq_take_of_le _ _ _ _ (by omega)
      rw [hc.stop i (by omega), endsMax, endsMax, hta]
      rfl)
    (fun i hi => by
      change l.position.getD ((l.order.insertIdx p o).getD i 0) none = some i
      rw [hget i hi]
      exact hc.place i (by omega))
  rw [attach_order]
  exact hre

theorem insertIdx_length_takeWhile {α : Type} (q : α → Bool) (x : α) (xs : List α) :
    xs.insertIdx (xs.takeWhile q).length x = xs.takeWhile q ++ x :: xs.dropWhile q := by
  induction xs with
  | nil => rfl
  | cons y ys ih =>
    by_cases hy : q y
    · simp [hy, ih]
    · simp [hy]

/-- The order is strictly sorted by start, end and key. -/
def Sorted (l : BlockList) : Prop :=
  l.order.Pairwise fun left right => (l.entry left).orderKey < (l.entry right).orderKey

theorem Sorted.attach (hs : Sorted l)
    (hne : ∀ other ∈ l.order, (l.entry other).orderKey ≠ (l.entry o).orderKey) :
    Sorted (l.attach o) := by
  rw [Sorted, attach_order, attachPosition, insertIdx_length_takeWhile]
  simp only [attach_entry]
  -- Everything from the first block that does not sort before `o` sorts after it.
  have ha : ∀ other ∈ l.order.dropWhile (fun other =>
      decide ((l.entry other).orderKey < (l.entry o).orderKey)),
      (l.entry o).orderKey < (l.entry other).orderKey := by
    have hsuf := hs.sublist (dropWhile_sublist (fun other =>
      decide ((l.entry other).orderKey < (l.entry o).orderKey)))
    have hhd := head?_dropWhile_not (fun other =>
      decide ((l.entry other).orderKey < (l.entry o).orderKey)) l.order
    have hsub := (dropWhile_sublist (l := l.order) (fun other =>
      decide ((l.entry other).orderKey < (l.entry o).orderKey))).subset
    generalize l.order.dropWhile _ = rest at hsuf hhd hsub
    cases rest with
    | nil => simp
    | cons first rest =>
      have hf : (l.entry o).orderKey < (l.entry first).orderKey := by
        have : ¬ (l.entry first).orderKey < (l.entry o).orderKey := by simpa using hhd
        exact lt_of_le_of_ne (not_lt.mp this) (hne first (hsub (by simp))).symm
      intro other hmem
      rcases mem_cons.mp hmem with rfl | hmem
      · exact hf
      · exact hf.trans (rel_of_pairwise_cons hsuf hmem)
  have hbef : ∀ other ∈ l.order.takeWhile (fun other =>
      decide ((l.entry other).orderKey < (l.entry o).orderKey)),
      (l.entry other).orderKey < (l.entry o).orderKey := fun other hmem => by
    simpa using mem_takeWhile_imp hmem
  rw [pairwise_append, pairwise_cons]
  refine ⟨hs.sublist (takeWhile_sublist _), ⟨ha, hs.sublist (dropWhile_sublist _)⟩, ?_⟩
  intro left hlf right hr
  rcases mem_cons.mp hr with rfl | hr
  · exact hbef left hlf
  · exact (hbef left hlf).trans (ha right hr)

end Attach

end KrabkaO11y.Blockstore.BlockList
