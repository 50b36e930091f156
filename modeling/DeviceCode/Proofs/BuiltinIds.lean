import DeviceCode.Builtin
import Mathlib.Data.List.Nodup
import Mathlib.Data.List.Perm.Subperm

/-!
# Ids of builtins

A table of builtins is the standard one and then each further signature once. The id of a signature is
its position, of which 16 bits are kept. `BuiltinTable.withExtra_numbers`: every signature has an id,
the standard ones keep theirs and their C functions, and ids and names are inverse to each other as long
as the table has at most 65536 entries, and no longer (`BuiltinTable.withExtra_collides`).
-/

namespace DeviceCode.BuiltinTable

variable {t : BuiltinTable} {i : Nat} {s : String} {id : UInt16}

/-- The signatures by position. -/
def signatures (t : BuiltinTable) : List String := t.entries.toList.map (·.signature)

theorem signatures_length (t : BuiltinTable) : t.signatures.length = t.entries.size := by
  simp [signatures]

theorem name?_eq (t : BuiltinTable) (id : UInt16) : t.name? id = t.signatures[id.toNat]? := by
  simp [name?, get?, signatures]

theorem lookup?_isSome_iff : (t.lookup? s).isSome ↔ s ∈ t.signatures := by
  simp only [lookup?, Option.isSome_map, Array.findIdx?_isSome, Array.any_eq_true', beq_iff_eq, signatures,
    List.mem_map, Array.mem_toList_iff]

/-- The id of a signature is its first position. -/
theorem lookup?_eq_some_iff : t.lookup? s = some id ↔
    ∃ i : Nat, t.signatures[i]? = some s ∧ (∀ j < i, t.signatures[j]? ≠ some s) ∧ i.toUInt16 = id := by
  simp only [lookup?, Option.map_eq_some_iff, ← and_assoc]
  refine exists_congr fun i => and_congr_left fun _ => ?_
  simp only [Array.findIdx?_eq_some_iff_getElem, signatures, List.getElem?_map, Array.getElem?_toList]
  refine ⟨fun ⟨hi, hs, hfirst⟩ => ⟨by simpa [hi] using hs, fun j hj => ?_⟩, fun ⟨hs, hfirst⟩ => ?_⟩
  · simpa [Array.getElem?_eq_getElem (Nat.lt_trans hj hi)] using hfirst j hj
  · obtain ⟨b, hb, rfl⟩ := Option.map_eq_some_iff.1 hs
    obtain ⟨hi, rfl⟩ := Array.getElem?_eq_some_iff.1 hb
    refine ⟨hi, by simp, fun j hj => ?_⟩
    simpa [Array.getElem?_eq_getElem (Nat.lt_trans hj hi)] using hfirst j hj

theorem name?_of_lookup? (hsize : t.entries.size ≤ 65536)
    (hs : t.lookup? s = some id) : t.name? id = some s := by
  obtain ⟨i, hi, -, rfl⟩ := lookup?_eq_some_iff.1 hs
  have hlt := (List.getElem?_eq_some_iff.1 hi).1
  rw [signatures_length] at hlt
  have hid : i.toUInt16.toNat = i := Nat.mod_eq_of_lt (by omega)
  rw [name?_eq, hid, hi]

/-! ## The table with further signatures -/

/-- The extension holds the signatures of `more`, beside the standard ones. -/
structure Extension.Holds (e : Extension) (more : List String) : Prop where
  entries : e.table.entries.toList = Builtin.standard ++ more.map .plain
  nodup : more.Nodup
  buckets : e.added.size = 512
  added : ∀ s, s ∈ e.added[bucket s]?.getD [] ↔ s ∈ more

theorem bucket_lt (s : String) : bucket s < 512 := by
  unfold bucket
  rcases List.eq_nil_or_concat s.toList with h | ⟨cs, c, h⟩
  · simp [h]
  · rw [h, List.concat_eq_append, List.foldl_append]
    exact Nat.mod_lt _ (by decide)

/-- One more signature is added where it is not there already. -/
theorem Extension.Holds.add {e : Extension} {more : List String} (h : e.Holds more) (s : String) :
    ∃ more', (e.add s).Holds more' ∧ ∀ x, x ∈ more' ↔ x ∈ more ∨ x = s ∧ x ∉ standard.signatures := by
  by_cases hs : s ∈ standard.signatures ∨ s ∈ more
  · have hold : e.add s = e := by
      rw [Extension.add, if_pos]
      simpa [lookup?_isSome_iff, h.added] using hs
    rw [hold]
    exact ⟨more, h, fun x => (or_iff_left_of_imp (by rintro ⟨rfl, hx⟩; exact hs.resolve_left hx)).symm⟩
  · have hnew : e.add s = ⟨⟨e.table.entries.push (.plain s)⟩, e.added.modify (bucket s) (s :: ·)⟩ := by
      rw [Extension.add, if_neg]
      simpa [lookup?_isSome_iff, h.added] using hs
    obtain ⟨hstandard, hmore⟩ := not_or.1 hs
    rw [hnew]
    refine ⟨more ++ [s], ⟨by simp [h.entries], ?_, by simpa using h.buckets, fun x => ?_⟩, fun x => ?_⟩
    · rw [← List.concat_eq_append]
      exact h.nodup.concat hmore
    · have hx := h.added x
      rw [Array.getElem?_eq_getElem (h.buckets ▸ bucket_lt x)] at hx
      rw [Array.getElem?_eq_getElem (by simp [h.buckets, bucket_lt])]
      by_cases hb : bucket s = bucket x
      · simp_all [Array.getElem_modify, or_comm]
      · have hne : x ≠ s := by
          rintro rfl
          exact hb rfl
        simp_all [Array.getElem_modify]
    · simp only [List.mem_append, List.mem_singleton]
      exact or_congr_right ⟨fun hx => ⟨hx, hx ▸ hstandard⟩, And.left⟩

theorem Extension.Holds.foldl (extra : List String) : ∀ {e : Extension} {more : List String},
    e.Holds more → ∃ more', (extra.foldl .add e).Holds more' ∧
      ∀ x, x ∈ more' ↔ x ∈ more ∨ x ∈ extra ∧ x ∉ standard.signatures := by
  induction extra with
  | nil => exact fun {_ more} h => ⟨more, h, by simp⟩
  | cons s extra ih =>
    intro e more h
    obtain ⟨more₁, h₁, hmem₁⟩ := h.add s
    obtain ⟨more₂, h₂, hmem₂⟩ := ih h₁
    refine ⟨more₂, h₂, fun x => ?_⟩
    rw [hmem₂, hmem₁, List.mem_cons, or_assoc, or_and_right]

theorem Extension.holds_nil : ({} : Extension).Holds [] where
  entries := by simp [standard]
  nodup := .nil
  buckets := by simp
  added s := by simp [bucket_lt]

/-- The table `t` is the standard one and then each signature of `more` once. -/
structure Appends (t : BuiltinTable) (more : List String) : Prop where
  entries : t.entries.toList = Builtin.standard ++ more.map .plain
  nodup : more.Nodup
  apart : ∀ s ∈ more, s ∉ standard.signatures

/-- The signatures that are added are those of `extra` that are not standard. -/
theorem withExtra_appends (extra : List String) : ∃ more, (withExtra extra).Appends more ∧
    ∀ s, s ∈ more ↔ s ∈ extra ∧ s ∉ standard.signatures := by
  obtain ⟨more, h, hmem⟩ := Extension.holds_nil.foldl extra
  simp only [List.not_mem_nil, false_or] at hmem
  exact ⟨more, ⟨h.entries, h.nodup, fun s hs => ((hmem s).1 hs).2⟩, hmem⟩

namespace Appends

variable {t : BuiltinTable} {more : List String} (h : t.Appends more)
include h

theorem signatures : t.signatures = standard.signatures ++ more := by
  rw [BuiltinTable.signatures, h.entries]
  simp [BuiltinTable.signatures, standard, Function.comp_def]

theorem size : t.entries.size = 95 + more.length := by
  rw [← Array.length_toList, h.entries, List.length_append, List.length_map]
  rfl

theorem signature_standard (hi : i < 95) : t.signatures[i]? = standard.signatures[i]? := by
  rw [h.signatures, List.getElem?_append_left hi]

theorem signature_added (i : Nat) : t.signatures[95 + i]? = more[i]? := by
  rw [h.signatures, List.getElem?_append_right (Nat.le_add_right 95 i)]
  exact congrArg (more[·]?) (Nat.add_sub_cancel_left 95 i)

theorem symbol?_standard (hid : id.toNat < 95) : t.symbol? id = standard.symbol? id := by
  rw [symbol?, symbol?, get?, get?, ← Array.getElem?_toList, h.entries, List.getElem?_append_left hid,
    ← Array.getElem?_toList]
  rfl

theorem symbol?_added (hid : 95 ≤ id.toNat) : t.symbol? id = none := by
  rw [symbol?, get?, ← Array.getElem?_toList, h.entries, List.getElem?_append_right hid, List.getElem?_map]
  cases more[id.toNat - Builtin.standard.length]? <;> rfl

/-- A standard signature keeps its id. -/
theorem lookup?_standard (hs : standard.lookup? s = some id) :
    id.toNat < 95 ∧ t.lookup? s = some id ∧ t.name? id = some s := by
  obtain ⟨i, hi, hfirst, rfl⟩ := lookup?_eq_some_iff.1 hs
  have hlt : i < 95 := (List.getElem?_eq_some_iff.1 hi).1
  have hid : i.toUInt16.toNat = i := Nat.mod_eq_of_lt (by omega)
  refine ⟨by rw [hid]; exact hlt, lookup?_eq_some_iff.2 ⟨i, ?_, fun j hj => ?_, rfl⟩, ?_⟩
  · rw [h.signature_standard hlt, hi]
  · rw [h.signature_standard (Nat.lt_trans hj hlt)]
    exact hfirst j hj
  · rw [name?_eq, hid, h.signature_standard hlt, hi]

/-- What is added has the id of its position. -/
theorem lookup?_added (hs : more[i]? = some s) :
    t.lookup? s = some (95 + i).toUInt16 := by
  refine lookup?_eq_some_iff.2 ⟨95 + i, (h.signature_added i).trans hs, fun j hj hj' => ?_, rfl⟩
  rcases Nat.lt_or_ge j 95 with hlt | hge
  · rw [h.signature_standard hlt] at hj'
    exact h.apart s (List.mem_of_getElem? hs) (List.mem_of_getElem? hj')
  · obtain ⟨k, rfl⟩ := Nat.exists_eq_add_of_le hge
    rw [h.signature_added, ← hs] at hj'
    have hk : k < i := by omega
    exact Nat.ne_of_lt hk
      ((List.getElem?_inj (Nat.lt_trans hk (List.getElem?_eq_some_iff.1 hs).1) h.nodup).1 hj')

/-- Beyond the 16 bits the ids begin again. -/
theorem lookup?_wraps (hi : 65536 + i < t.entries.size) :
    ∃ s ∈ more, t.lookup? s = some i.toUInt16 := by
  rw [h.size] at hi
  have hs : more[65441 + i]? = some more[65441 + i] := List.getElem?_eq_getElem (by omega)
  refine ⟨_, List.mem_of_getElem? hs, ?_⟩
  rw [h.lookup?_added hs]
  exact congrArg some (UInt16.toNat_inj.1 (by simp only [Nat.toUInt16, UInt16.toNat_ofNat']; omega))

theorem inverse_iff : (∀ s id, t.lookup? s = some id → t.name? id = some s) ↔ t.entries.size ≤ 65536 := by
  refine ⟨fun hinverse => Nat.le_of_not_lt fun hsize => ?_, fun hsize _ _ => name?_of_lookup? hsize⟩
  obtain ⟨s, hs, hid⟩ := h.lookup?_wraps (i := 0) hsize
  have hname := hinverse s _ hid
  rw [name?_eq, h.signature_standard (by decide)] at hname
  exact h.apart s hs (List.mem_of_getElem? hname)

theorem distinct_iff : (∀ s s' id, t.lookup? s = some id → t.lookup? s' = some id → s = s') ↔
    t.entries.size ≤ 65536 := by
  refine ⟨fun hdistinct => Nat.le_of_not_lt fun hsize => ?_, fun hsize s s' id hs hs' => ?_⟩
  · obtain ⟨s, hs, hid⟩ := h.lookup?_wraps (i := 0) hsize
    have hfirst : standard.lookup? "System.Object..ctor()" = some 0 :=
      lookup?_eq_some_iff.2 ⟨0, rfl, fun j hj => absurd hj (Nat.not_lt_zero j), rfl⟩
    obtain rfl := hdistinct s _ _ hid (h.lookup?_standard hfirst).2.1
    exact h.apart _ hs (lookup?_isSome_iff.1 (by rw [hfirst]; rfl))
  · rw [← Option.some_inj, ← name?_of_lookup? hsize hs, name?_of_lookup? hsize hs']

/-- The first id has no C function either, so one entry more is harmless here. -/
theorem plain_iff : (∀ s id, s ∉ standard.signatures → t.lookup? s = some id → t.symbol? id = none) ↔
    t.entries.size ≤ 65537 := by
  refine ⟨fun hplain => Nat.le_of_not_lt fun hsize => ?_, fun hsize s id hs hid => ?_⟩
  · obtain ⟨s, hs, hid⟩ := h.lookup?_wraps (i := 1) hsize
    have hnone := hplain s _ (h.apart s hs) hid
    rw [h.symbol?_standard (by decide)] at hnone
    cases hnone
  · obtain ⟨i, hi, -, rfl⟩ := lookup?_eq_some_iff.1 hid
    have hlt := (List.getElem?_eq_some_iff.1 hi).1
    rw [signatures_length] at hlt
    have hge : 95 ≤ i := Nat.le_of_not_lt fun hlt' =>
      hs (List.mem_of_getElem? (h.signature_standard hlt' ▸ hi))
    rcases Nat.lt_or_ge i 65536 with h16 | h16
    · refine h.symbol?_added ?_
      rwa [show i.toUInt16.toNat = i from Nat.mod_eq_of_lt h16]
    · obtain rfl : i = 65536 := by omega
      exact h.symbol?_standard (by decide)

end Appends

/-- How the table `t` with the further signatures `extra` is numbered. -/
structure Numbers (t : BuiltinTable) (extra : List String) : Prop where
  /-- Every signature has an id, and no other text has one. -/
  found : ∀ s, (t.lookup? s).isSome ↔ s ∈ standard.signatures ∨ s ∈ extra
  /-- The entries are the standard ones and then each further signature once, without a C function. -/
  entries : ∃ more, t.Appends more ∧ ∀ s, s ∈ more ↔ s ∈ extra ∧ s ∉ standard.signatures
  /-- A standard signature keeps its id and its C function. -/
  standard : ∀ s id, standard.lookup? s = some id →
    t.lookup? s = some id ∧ t.name? id = some s ∧ t.symbol? id = standard.symbol? id
  /-- Names are inverse to ids, exactly in a table whose positions have 16 bits. -/
  inverse : (∀ s id, t.lookup? s = some id → t.name? id = some s) ↔ t.entries.size ≤ 65536
  /-- So far are the ids of two signatures distinct. -/
  distinct : (∀ s s' id, t.lookup? s = some id → t.lookup? s' = some id → s = s') ↔
    t.entries.size ≤ 65536
  /-- The id of a further signature has no C function, with one entry more: the first entry has none. -/
  plain : (∀ s id, s ∉ BuiltinTable.standard.signatures → t.lookup? s = some id → t.symbol? id = none) ↔
    t.entries.size ≤ 65537

/-- **The numbering of builtins.** -/
theorem withExtra_numbers (extra : List String) : (withExtra extra).Numbers extra := by
  obtain ⟨more, h, hmem⟩ := withExtra_appends extra
  refine ⟨fun s => ?_, ⟨more, h, hmem⟩, fun s id hs => ?_, h.inverse_iff, h.distinct_iff,
    h.plain_iff⟩
  · rw [lookup?_isSome_iff, h.signatures, List.mem_append, hmem]
    exact ⟨fun hs => hs.imp_right And.left, fun hs => or_and_left.2 ⟨hs, Classical.em _⟩⟩
  · obtain ⟨hid, hlookup, hname⟩ := h.lookup?_standard hs
    exact ⟨hlookup, hname, h.symbol?_standard hid⟩

/-- There are lists of signatures that get one id twice. -/
theorem withExtra_collides : ∃ extra s id,
    (withExtra extra).lookup? s = some id ∧ (withExtra extra).name? id ≠ some s := by
  let extra := (List.range 65537).map fun n => String.ofList (List.replicate n 'a')
  obtain ⟨more, h, hmem⟩ := withExtra_appends extra
  have hnodup : extra.Nodup := by
    refine List.nodup_range.map fun m n hmn => ?_
    simpa using congrArg String.length hmn
  have hsubset : extra ⊆ (withExtra extra).signatures := fun s hs => by
    rw [h.signatures, List.mem_append, hmem]
    exact or_and_left.2 ⟨.inr hs, Classical.em _⟩
  have hsize := (List.subperm_of_subset hnodup hsubset).length_le
  rw [signatures_length, List.length_map, List.length_range] at hsize
  have hnot := mt h.inverse_iff.1 (Nat.not_le_of_lt hsize)
  push Not at hnot
  exact ⟨extra, hnot⟩

end DeviceCode.BuiltinTable
