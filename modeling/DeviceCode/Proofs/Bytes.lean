import DeviceCode.Placement
import DeviceCode.Word
import Mathlib.Data.List.Basic

/-!
# Words and bytes

Words are read back from their bytes (`Word.ofBytes16_bytes16`, `Word.ofBytes32_bytes32`), and
numbers below the bound of a word are read back from the word. `Holds bytes position xs`: the bytes
`xs` stand at a position of `bytes`. Items that are written end to end stand at their placements
(`Holds.placed`).
-/

namespace DeviceCode

open List

/-! ## Words -/

variable {α : Type} {n : Nat} {w : UInt16} {f : α → List UInt8} {offset : α → Nat}

theorem word16?_eq_some :
    word16? n = some w ↔ n < 65536 ∧ n.toUInt16 = w := by
  unfold word16?
  by_cases h : n < 65536
  · simp [h]
  · simp [h]

theorem toNat_toUInt16 (h : n < 65536) : n.toUInt16.toNat = n := by
  simp only [Nat.toUInt16_eq, UInt16.toNat_ofNat']
  omega

theorem toNat_toUInt32 (h : n < 4294967296) : n.toUInt32.toNat = n := by
  simp only [Nat.toUInt32_eq, UInt32.toNat_ofNat']
  omega

theorem word16?_toNat (h : word16? n = some w) : w.toNat = n := by
  obtain ⟨hn, rfl⟩ := word16?_eq_some.1 h
  exact toNat_toUInt16 hn

namespace Word

@[simp] theorem length_bytes16 (w : UInt16) : (bytes16 w).length = 2 := rfl

@[simp] theorem length_bytes32 (w : UInt32) : (bytes32 w).length = 4 := rfl

theorem or_shiftLeft {a k : Nat} (hn : 1 <<< k = n) (h : a < n) (b : Nat) :
    a ||| b <<< k = a + b * n := by
  rw [Nat.shiftLeft_eq, Nat.one_mul] at hn
  subst hn
  rw [Nat.or_comm, ← Nat.shiftLeft_add_eq_or_of_lt h, Nat.shiftLeft_eq, Nat.add_comm]

theorem toNat_ofBytes16 (b₀ b₁ : UInt8) : (ofBytes16 b₀ b₁).toNat = b₀.toNat + b₁.toNat * 256 := by
  have h₀ := b₀.toNat_lt
  have h₁ := b₁.toNat_lt
  simp only [ofBytes16, UInt16.toNat_or, UInt16.toNat_shiftLeft, UInt8.toNat_toUInt16,
    UInt16.reduceToNat, Nat.reduceMod]
  rw [Nat.mod_eq_of_lt (by omega), or_shiftLeft (n := 256) rfl (by omega)]

theorem toNat_ofBytes32 (b₀ b₁ b₂ b₃ : UInt8) : (ofBytes32 b₀ b₁ b₂ b₃).toNat =
    b₀.toNat + b₁.toNat * 256 + b₂.toNat * 65536 + b₃.toNat * 16777216 := by
  have h₀ := b₀.toNat_lt
  have h₁ := b₁.toNat_lt
  have h₂ := b₂.toNat_lt
  have h₃ := b₃.toNat_lt
  simp only [ofBytes32, UInt32.toNat_or, UInt32.toNat_shiftLeft, UInt8.toNat_toUInt32,
    UInt32.reduceToNat, Nat.reduceMod]
  rw [Nat.mod_eq_of_lt (a := b₁.toNat <<< 8) (by omega),
    Nat.mod_eq_of_lt (a := b₂.toNat <<< 16) (by omega),
    Nat.mod_eq_of_lt (a := b₃.toNat <<< 24) (by omega),
    or_shiftLeft (a := b₀.toNat) (n := 256) rfl (by omega),
    or_shiftLeft (k := 16) (n := 65536) rfl (by omega),
    or_shiftLeft (k := 24) (n := 16777216) rfl (by omega)]

/-- **A word is read back from its bytes.** -/
theorem ofBytes16_bytes16 (w : UInt16) : ofBytes16 w.toUInt8 (w >>> 8).toUInt8 = w := by
  have h := w.toNat_lt
  apply UInt16.toNat_inj.1
  rw [toNat_ofBytes16]
  simp only [UInt16.toNat_toUInt8, UInt16.toNat_shiftRight, UInt16.reduceToNat, Nat.reduceMod,
    Nat.shiftRight_eq_div_pow]
  omega

/-- **A double word is read back from its bytes.** -/
theorem ofBytes32_bytes32 (w : UInt32) :
    ofBytes32 w.toUInt8 (w >>> 8).toUInt8 (w >>> 16).toUInt8 (w >>> 24).toUInt8 = w := by
  have h := w.toNat_lt
  apply UInt32.toNat_inj.1
  rw [toNat_ofBytes32]
  simp only [UInt32.toNat_toUInt8, UInt32.toNat_shiftRight, UInt32.reduceToNat, Nat.reduceMod,
    Nat.shiftRight_eq_div_pow]
  omega

end Word

/-! ## Placements -/

@[simp] theorem length_placements : ∀ (start : Nat) (sizes : List Nat),
    (placements start sizes).length = sizes.length
  | _, [] => rfl
  | start, size :: sizes => by rw [placements, length_cons, length_placements, length_cons]

/-- What items of those sizes take together. -/
def total : (sizes : List Nat) → Nat
  | [] => 0
  | size :: sizes => size + total sizes

theorem getElem?_placements : ∀ {start : Nat} {sizes : List Nat} {i : Nat}, i < sizes.length →
    (placements start sizes)[i]? = some (start + total (sizes.take i))
  | start, size :: sizes, 0, _ => by simp [placements, total]
  | start, size :: sizes, i + 1, h => by
    rw [placements, getElem?_cons_succ, getElem?_placements (by simpa using h)]
    simp [total, Nat.add_assoc]

theorem next_placement : ∀ {start : Nat} {sizes : List Nat} {i offset size : Nat},
    (placements start sizes)[i]? = some offset → sizes[i]? = some size →
    (i + 1 < sizes.length → (placements start sizes)[i + 1]? = some (offset + size)) ∧
      (i + 1 = sizes.length → offset + size = start + total sizes)
  | _, [], _, _, _, _, hs => by simp at hs
  | start, a :: sizes, 0, offset, size, h, hs => by
    cases hs
    cases h
    cases sizes with
    | nil => exact ⟨fun hlt => absurd hlt (by simp), fun _ => by simp [total]⟩
    | cons b sizes => exact ⟨fun _ => rfl, fun hlast => absurd hlast (by simp)⟩
  | start, a :: sizes, i + 1, offset, size, h, hs => by
    have h : (placements (start + a) sizes)[i]? = some offset := h
    obtain ⟨hnext, hlast⟩ := next_placement h hs
    rw [length_cons]
    refine ⟨fun hlt => hnext (by omega), fun heq => ?_⟩
    rw [hlast (by omega), total, Nat.add_assoc]

theorem placed_within {size : α → Nat} : ∀ {items : List α} {start : Nat},
    items.map offset = placements start (items.map size) →
    ∀ a ∈ items, start ≤ offset a ∧ offset a + size a ≤ start + total (items.map size)
  | [], _, _, _, ha => by simp at ha
  | b :: items, start, h, a, ha => by
    simp only [map_cons, placements, cons.injEq] at h
    obtain ⟨rfl, hrest⟩ := h
    rw [map_cons, total]
    rcases mem_cons.1 ha with rfl | ha
    · omega
    · have := placed_within hrest a ha
      omega

theorem placed_pairwise {size : α → Nat} : ∀ {items : List α} {start : Nat},
    items.map offset = placements start (items.map size) →
    items.Pairwise fun a b => offset a + size a ≤ offset b
  | [], _, _ => .nil
  | b :: items, start, h => by
    simp only [map_cons, placements, cons.injEq] at h
    obtain ⟨rfl, hrest⟩ := h
    exact .cons (fun a ha => (placed_within hrest a ha).1) (placed_pairwise hrest)

theorem placed_zip (size : α → Nat) : ∀ (items : List α) (start : Nat),
    (items.zip (placements start (items.map size))).map (·.2) =
      placements start ((items.zip (placements start (items.map size))).map fun e => size e.1)
  | [], _ => rfl
  | a :: items, start => by
    simp only [map_cons, placements, zip_cons_cons]
    rw [placed_zip size items (start + size a)]

theorem length_flatMap_total (f : α → List UInt8) :
    ∀ items : List α, (items.flatMap f).length = total (items.map fun a => (f a).length)
  | [] => rfl
  | a :: items => by
    rw [flatMap_cons, length_append, length_flatMap_total f items, map_cons, total]

theorem length_flatten_total :
    ∀ items : List (List UInt8), items.flatten.length = total (items.map List.length)
  | [] => rfl
  | x :: items => by
    rw [flatten_cons, length_append, length_flatten_total items, map_cons, total]

/-! ## Bytes at a position -/

/-- The bytes `xs` stand at the position. -/
def Holds (bytes : Array UInt8) (position : Nat) (xs : List UInt8) : Prop :=
  ∃ before after, bytes.toList = before ++ xs ++ after ∧ before.length = position

namespace Holds

variable {bytes : Array UInt8} {position : Nat} {xs ys : List UInt8}

theorem of_append (before xs after : List UInt8) :
    Holds (before ++ xs ++ after).toArray before.length xs := ⟨before, after, rfl, rfl⟩

theorem append : Holds bytes position (xs ++ ys) ↔
    Holds bytes position xs ∧ Holds bytes (position + xs.length) ys := by
  constructor
  · rintro ⟨before, after, h, rfl⟩
    exact ⟨⟨before, ys ++ after, by simp [h], rfl⟩, ⟨before ++ xs, after, by simp [h], by simp⟩⟩
  · rintro ⟨⟨before, after, h, rfl⟩, before', after', h', hlen⟩
    rw [← length_append] at hlen
    rw [h, append_assoc before'] at h'
    obtain ⟨rfl, rfl⟩ := append_inj h' hlen.symm
    exact ⟨before, after', by simp [h], rfl⟩

theorem size_le (h : Holds bytes position xs) : position + xs.length ≤ bytes.size := by
  obtain ⟨before, after, h, rfl⟩ := h
  rw [← Array.length_toList, h]
  simp

theorem getElem? (h : Holds bytes position xs) {i : Nat} (hi : i < xs.length) :
    bytes[position + i]? = xs[i]? := by
  obtain ⟨before, after, h, rfl⟩ := h
  rw [← Array.getElem?_toList, h, append_assoc, getElem?_append_right (by omega),
    getElem?_append_left (by omega)]
  simp

theorem extract (h : Holds bytes position xs) :
    (bytes.extract position (position + xs.length)).toList = xs := by
  obtain ⟨before, after, h, rfl⟩ := h
  rw [Array.toList_extract, h]
  simp

theorem placed : ∀ {items : List α} {start : Nat},
    Holds bytes start (items.flatMap f) →
    ∀ e ∈ items.zip (placements start (items.map fun a => (f a).length)), Holds bytes e.2 (f e.1)
  | [], _, _, e, he => by simp at he
  | a :: items, start, h, e, he => by
    rw [flatMap_cons, append] at h
    rw [map_cons, placements, zip_cons_cons, mem_cons] at he
    rcases he with rfl | he
    · exact h.1
    · exact placed h.2 e he

theorem at_offset {base : Nat} :
    ∀ {items : List α} {start : Nat},
      items.map offset = placements start (items.map fun a => (f a).length) →
      Holds bytes (base + start) (items.flatMap f) →
      ∀ a ∈ items, Holds bytes (base + offset a) (f a)
  | [], _, _, _, _, ha => by simp at ha
  | b :: items, start, hoffsets, h, a, ha => by
    simp only [map_cons, placements, cons.injEq] at hoffsets
    obtain ⟨rfl, hrest⟩ := hoffsets
    rw [flatMap_cons, append, Nat.add_assoc] at h
    rcases mem_cons.1 ha with rfl | ha
    · exact h.1
    · exact at_offset hrest h.2 a ha

end Holds

end DeviceCode
