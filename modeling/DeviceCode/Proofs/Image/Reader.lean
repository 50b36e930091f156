import DeviceCode.Image.Reader
import DeviceCode.Proofs.Bytes
import DeviceCode.Proofs.Outcome

/-!
# Reading any bytes

`CursorM.Spells bytes x Row`: the cursor `x` reads `a` exactly where bytes stand that spell `a`, and stops
behind them. It goes through binds and repetitions. `LoadedImage.StandsIn`: every part of a loaded image
stands in the bytes, in its section, and the sections fill the bytes; `read_ok_iff` says that this is what
reading finds.

The positions that `LoadedImage.read` goes to come from the bytes that it reads. `Checked.read` is the same
reader, in which a slice that leaves the bytes and a subtraction below zero are faults; a cursor looks up
single bytes and stops where there are none. Main statement: `LoadedImage.read_in_range`.
-/

namespace DeviceCode

open Word

open Image

open Holds

open LoadedImage

open List

variable {α β : Type} {bytes : Array UInt8} {b : Bounds} {position n stop start : Nat}
  {Row : α → Nat → List UInt8 → Prop} {entry : CursorM (α × Nat) } {starts : List Nat}
  {encode : α → List UInt8} {name : String} {t : List α × Nat}

/-! ## Bytes -/

namespace Word

theorem bytes16_ofBytes16 (b₀ b₁ : UInt8) : bytes16 (ofBytes16 b₀ b₁) = [b₀, b₁] := by
  have h₀ := b₀.toNat_lt
  have h₁ := b₁.toNat_lt
  simp only [bytes16, cons.injEq, and_true, ← UInt8.toNat_inj, UInt16.toNat_toUInt8,
    UInt16.toNat_shiftRight, toNat_ofBytes16, UInt16.reduceToNat, Nat.reduceMod,
    Nat.shiftRight_eq_div_pow]
  omega

theorem bytes32_ofBytes32 (b₀ b₁ b₂ b₃ : UInt8) :
    bytes32 (ofBytes32 b₀ b₁ b₂ b₃) = [b₀, b₁, b₂, b₃] := by
  have h₀ := b₀.toNat_lt
  have h₁ := b₁.toNat_lt
  have h₂ := b₂.toNat_lt
  have h₃ := b₃.toNat_lt
  simp only [bytes32, cons.injEq, and_true, ← UInt8.toNat_inj, UInt32.toNat_toUInt8,
    UInt32.toNat_shiftRight, toNat_ofBytes32, UInt32.reduceToNat, Nat.reduceMod,
    Nat.shiftRight_eq_div_pow]
  omega

end Word

theorem Holds.of_extract (h₁ : position ≤ stop) (h₂ : stop ≤ bytes.size) :
    Holds bytes position (bytes.extract position stop).toList := by
  refine ⟨bytes.toList.take position, bytes.toList.drop stop, ?_, by simp; omega⟩
  obtain ⟨n, rfl⟩ := Nat.exists_eq_add_of_le h₁
  rw [Array.toList_extract, extract_eq_take_drop, Nat.add_sub_cancel_left, append_assoc,
    ← drop_drop, take_append_drop, take_append_drop]

theorem Holds.nil (h : position ≤ bytes.size) : Holds bytes position [] := by
  simpa using of_extract (Nat.le_refl position) h

theorem Holds.singleton {x : UInt8} : Holds bytes position [x] ↔ bytes[position]? = some x := by
  refine ⟨fun h => h.getElem? (i := 0) (by simp), fun h => ?_⟩
  have hone : (bytes.extract position (position + 1)).toList = [x] := by
    rw [Array.toList_extract, extract_eq_take_drop, Nat.add_sub_cancel_left, take_one,
      head?_drop, Array.getElem?_toList, h]
    rfl
  exact hone ▸ of_extract (Nat.le_add_right _ _) (Array.getElem?_eq_some_iff.1 h).1

theorem Holds.cons {x : UInt8} {xs : List UInt8} : Holds bytes position (x :: xs) ↔
    bytes[position]? = some x ∧ Holds bytes (position + 1) xs := by
  rw [← singleton]
  exact (append : Holds bytes position ([x] ++ xs) ↔ _)

theorem exists_count {P : UInt16 → Prop} :
    (∃ count : UInt16, n = count.toNat ∧ P count) ↔ n < 65536 ∧ P n.toUInt16 := by
  constructor
  · rintro ⟨count, rfl, h⟩
    exact ⟨count.toNat_lt, by simpa using h⟩
  · exact fun h => ⟨_, (toNat_toUInt16 h.1).symm, h.2⟩

theorem forall₂_encode {items : List α} {rows : List (List UInt8)} :
    List.Forall₂ (fun a xs => xs = encode a) items rows ↔ rows = items.map encode := by
  constructor
  · intro h
    induction h with
    | nil => rfl
    | cons h _ ih => rw [map_cons, h, ih]
  · rintro rfl
    exact forall₂_map_right_iff.2 (forall₂_same.2 fun _ _ => rfl)

/-! ## Cursors -/

namespace CursorM

/-- The cursor reads what stands where it starts, and stops behind that. -/
def Spells (bytes : Array UInt8) (x : CursorM α) (Row : α → List UInt8 → Prop) : Prop :=
  ∀ position a stop, position ≤ bytes.size → (x position = .ok (a, stop) ↔
    ∃ xs, Row a xs ∧ Holds bytes position xs ∧ stop = position + xs.length)

namespace Spells

variable {x : CursorM α} {Row Row' : α → List UInt8 → Prop} {Rest : α → β → List UInt8 → Prop}
  {f : α → CursorM β}

theorem congr (h : Spells bytes x Row) (hrow : ∀ a xs, Row a xs ↔ Row' a xs) :
    Spells bytes x Row' := by
  have heq : Row = Row' := funext fun a => funext fun xs => propext (hrow a xs)
  exact heq ▸ h

theorem pure (a : α) : Spells bytes (pure a) fun a' xs => a' = a ∧ xs = [] := by
  intro position a' stop hle
  constructor
  · intro h
    cases h
    exact ⟨[], ⟨rfl, rfl⟩, .nil hle, rfl⟩
  · rintro ⟨_, ⟨rfl, rfl⟩, -, rfl⟩
    rfl

theorem bind_of (h : Spells bytes x Row)
    (hf : ∀ a ys, Row a ys → Spells bytes (f a) (Rest a)) : Spells bytes (x >>= f) fun b xs =>
      ∃ a ys zs, Row a ys ∧ Rest a b zs ∧ xs = ys ++ zs := by
  intro position b stop hle
  constructor
  · intro hx
    obtain ⟨⟨a, middle⟩, hx, hfx⟩ := except_bind_ok.1 hx
    obtain ⟨ys, hrow, hys, rfl⟩ := (h position a middle hle).1 hx
    obtain ⟨zs, hrest, hzs, rfl⟩ := (hf a ys hrow _ b stop hys.size_le).1 hfx
    exact ⟨ys ++ zs, ⟨a, ys, zs, hrow, hrest, rfl⟩, append.2 ⟨hys, hzs⟩,
      by rw [length_append, Nat.add_assoc]⟩
  · rintro ⟨_, ⟨a, ys, zs, hrow, hrest, rfl⟩, hheld, rfl⟩
    obtain ⟨hys, hzs⟩ := append.1 hheld
    refine except_bind_ok.2 ⟨(a, _), (h position a _ hle).2 ⟨ys, hrow, hys, rfl⟩, ?_⟩
    exact (hf a ys hrow _ b _ hys.size_le).2
      ⟨zs, hrest, hzs, by rw [length_append, Nat.add_assoc]⟩

theorem bind (h : Spells bytes x Row)
    (hf : ∀ a, Spells bytes (f a) (Rest a)) : Spells bytes (x >>= f) fun b xs =>
      ∃ a ys zs, Row a ys ∧ Rest a b zs ∧ xs = ys ++ zs := h.bind_of fun a _ _ => hf a

theorem seq (h : Spells bytes x fun a xs => xs = encode a)
    (hf : ∀ a, Spells bytes (f a) (Rest a)) : Spells bytes (x >>= f) fun b xs =>
      ∃ a zs, Rest a b zs ∧ xs = encode a ++ zs := by
  refine (h.bind hf).congr fun _ _ => ?_
  simp

theorem lift {P : α → Prop} {x : Except ImageError α} (h : ∀ a, x = .ok a ↔ P a) :
    Spells bytes (monadLift x : CursorM α) fun a xs => P a ∧ xs = [] := by
  intro position a stop hle
  show (x >>= fun a => Pure.pure (a, position)) = _ ↔ _
  rw [except_bind_ok]
  constructor
  · rintro ⟨a', ha, hx⟩
    cases hx
    exact ⟨[], ⟨(h a).1 ha, rfl⟩, .nil hle, rfl⟩
  · rintro ⟨_, ⟨ha, rfl⟩, -, rfl⟩
    exact ⟨a, (h a).2 ha, rfl⟩

theorem byte : Spells bytes (CursorM.byte bytes) fun x xs => xs = [x] := by
  intro position x stop _
  unfold CursorM.byte
  constructor
  · intro h
    split at h
    · rename_i hx
      cases h
      exact ⟨_, rfl, singleton.2 hx, rfl⟩
    · cases h
  · rintro ⟨_, rfl, hheld, rfl⟩
    rw [singleton.1 hheld]
    rfl

theorem word : Spells bytes (CursorM.word bytes) fun w xs => xs = Word.bytes16 w := by
  intro position w stop _
  unfold CursorM.word
  constructor
  · intro h
    split at h
    · rename_i b₀ b₁ h₀ h₁
      cases h
      refine ⟨_, rfl, ?_, rfl⟩
      rw [bytes16_ofBytes16, Holds.cons, Holds.singleton]
      exact ⟨h₀, h₁⟩
    · cases h
  · rintro ⟨_, rfl, hheld, rfl⟩
    rw [bytes16, Holds.cons, Holds.singleton] at hheld
    rw [hheld.1, hheld.2]
    exact congrArg (fun w => Except.ok (w, position + 2)) (ofBytes16_bytes16 w)

theorem double : Spells bytes (CursorM.double bytes) fun w xs => xs = Word.bytes32 w := by
  intro position w stop _
  unfold CursorM.double
  constructor
  · intro h
    split at h
    · rename_i b₀ b₁ b₂ b₃ h₀ h₁ h₂ h₃
      cases h
      refine ⟨_, rfl, ?_, rfl⟩
      rw [bytes32_ofBytes32, Holds.cons, Holds.cons, Holds.cons, Holds.singleton]
      exact ⟨h₀, h₁, h₂, h₃⟩
    · cases h
  · rintro ⟨_, rfl, hheld, rfl⟩
    rw [bytes32, Holds.cons, Holds.cons, Holds.cons, Holds.singleton] at hheld
    obtain ⟨h₀, h₁, h₂, h₃⟩ := hheld
    rw [h₀, h₁, h₂, h₃]
    exact congrArg (fun w => Except.ok (w, position + 4)) (ofBytes32_bytes32 w)

theorem signedWord :
    Spells bytes (CursorM.signedWord bytes) fun i xs => xs = Word.bytes16 i.toUInt16 := by
  refine (word.seq fun w => .pure w.toInt16).congr fun i xs => ⟨?_, ?_⟩
  · rintro ⟨w, _, ⟨rfl, rfl⟩, rfl⟩
    simp
  · rintro rfl
    exact ⟨i.toUInt16, [], ⟨by simp, rfl⟩, by simp⟩

theorem many (h : Spells bytes x Row) : ∀ n, Spells bytes (CursorM.many n x) fun items xs =>
    items.length = n ∧ ∃ rows, List.Forall₂ Row items rows ∧ xs = rows.flatten
  | 0 => (pure []).congr fun items xs => by
    constructor
    · rintro ⟨rfl, rfl⟩
      exact ⟨rfl, [], .nil, rfl⟩
    · rintro ⟨hlength, rows, hrows, rfl⟩
      cases hrows with
      | nil => exact ⟨rfl, rfl⟩
      | cons => cases hlength
  | n + 1 => by
    have hrest := many h n
    unfold CursorM.many at hrest ⊢
    rw [replicate_succ, mapM_cons]
    refine (h.bind fun a => hrest.bind fun items => pure (a :: items)).congr fun items xs => ⟨?_, ?_⟩
    · rintro ⟨a, ys, _, hrow, ⟨items, _, _, ⟨rfl, rows, hrows, rfl⟩, ⟨rfl, rfl⟩, rfl⟩, rfl⟩
      exact ⟨rfl, ys :: rows, .cons hrow hrows, by simp⟩
    · rintro ⟨hlength, _, hrows, rfl⟩
      cases hrows with
      | nil => cases hlength
      | @cons a ys items rows hrow hrows =>
        exact ⟨a, ys, _, hrow, ⟨items, _, [], ⟨Nat.succ.inj hlength, rows, hrows, rfl⟩, ⟨rfl, rfl⟩,
          rfl⟩, by simp⟩

theorem each (encode : α → List UInt8) (h : Spells bytes x Row)
    (hrow : ∀ a xs, Row a xs ↔ xs = encode a) (n : Nat) :
    Spells bytes (CursorM.many n x) fun items xs =>
      items.length = n ∧ xs = items.flatMap encode := by
  refine ((h.congr hrow).many n).congr fun items xs => ?_
  simp [forall₂_encode, exists_eq_left, ← flatMap_def]

theorem counted (h : Spells bytes x Row) :
    Spells bytes (do CursorM.many (← CursorM.word bytes).toNat x) fun items xs =>
      items.length < 65536 ∧ ∃ rows, List.Forall₂ Row items rows ∧
        xs = Image.word items.length ++ rows.flatten := by
  refine (word.seq fun count => many h count.toNat).congr fun items xs => ?_
  simp [and_assoc, exists_count, Image.word]

end Spells

theorem take_ok_iff {code : Array UInt8} : take bytes n position = .ok (code, stop) ↔
    Holds bytes position code.toList ∧ code.size = n ∧ stop = position + n := by
  unfold take
  constructor
  · intro h
    split at h
    · rename_i hle
      cases h
      exact ⟨.of_extract (Nat.le_add_right _ _) hle, by simp; omega, rfl⟩
    · cases h
  · rintro ⟨hheld, rfl, rfl⟩
    have hcode := hheld.extract
    have hle := hheld.size_le
    rw [Array.length_toList] at hcode hle
    rw [if_pos hle, Array.toList_inj.1 hcode]

end CursorM

namespace Bounds

/-- A position that a row names lies in the section. -/
def Has (b : Bounds) (start : UInt32) : Prop := b.start ≤ start.toNat ∧ start.toNat ≤ b.stop

theorem check_ok_iff {what : String} {offset : UInt32} (start : Nat) :
    b.check what offset = .ok start ↔ start = offset.toNat ∧ Has b offset := by
  unfold check Has
  split <;> simp [*, eq_comm]

end Bounds

namespace CursorM.Spells

theorem at_start {x : CursorM α} {Row : α → List UInt8 → Prop} (h : Spells bytes x Row)
    (hstart : start ≤ bytes.size) :
    Spells bytes (monadLift (x start) : CursorM (α × Nat)) fun e xs =>
      (∃ row, Row e.1 row ∧ Holds bytes start row ∧ e.2 = start + row.length) ∧ xs = [] :=
  .lift fun e => h start e.1 e.2 hstart

theorem offset {f : Nat → CursorM β} {Rest : Nat → β → List UInt8 → Prop} (what : String)
    (hb : b.stop ≤ bytes.size) (hf : ∀ start ≤ bytes.size, Spells bytes (f start) (Rest start)) :
    Spells bytes (do f (← b.check what (← CursorM.double bytes))) fun c xs =>
      ∃ start, b.Has start ∧ ∃ zs, Rest start.toNat c zs ∧ xs = Word.bytes32 start ++ zs := by
  refine (Spells.double.seq fun offset => (Spells.lift Bounds.check_ok_iff).bind_of fun start _ h =>
    hf start ?_).congr fun c xs => ?_
  · rw [h.1.1]
    exact Nat.le_trans h.1.2.2 hb
  · simp [and_assoc]

end CursorM.Spells

/-! ## Records -/

namespace LoadedImage

open CursorM

theorem spells_slots : Spells bytes (readSlots bytes) fun slots xs =>
    slots.length < 65536 ∧ xs = SlotRecord.encodeAll slots := by
  refine Spells.congr (Spells.word.seq fun count => Spells.each SlotRecord.encode
    (Spells.byte.seq fun _ => Spells.signedWord.seq fun _ => .pure _)
    (fun s xs => by cases s; simp [SlotRecord.encode, and_assoc]) count.toNat) fun slots xs => ?_
  simp [exists_count, SlotRecord.encodeAll, Image.word]

theorem spells_fields : ∀ count, Spells bytes (readFields bytes count) fun fields xs =>
    fields.length = count ∧ xs = fields.flatMap FieldRecord.encode :=
  Spells.each _ (Spells.byte.seq fun _ => Spells.word.seq fun _ => Spells.signedWord.seq fun _ =>
    .pure _) fun f xs => by cases f; simp [FieldRecord.encode, and_assoc]

theorem spells_dispatch : Spells bytes (readDispatch bytes) fun d xs =>
    d.implementors.length < 65536 ∧ xs = d.encode := by
  refine Spells.congr (Spells.word.seq fun count => Spells.word.seq fun _ =>
    (Spells.each (fun i => bytes16 i.classId ++ bytes16 i.method)
      (Spells.word.seq fun _ => Spells.word.seq fun _ => .pure _)
      (fun i xs => by cases i; simp [and_assoc]) count.toNat).bind fun _ => .pure _) fun d xs => ?_
  cases d
  simp [and_assoc, exists_count, DispatchRecord.encode, Image.word]

theorem spells_header : Spells bytes (readHeader bytes) fun h xs => xs = h.encode :=
  Spells.congr (Spells.double.seq fun _ => Spells.double.seq fun _ => Spells.double.seq fun _ =>
    Spells.double.seq fun _ => Spells.double.seq fun _ => Spells.double.seq fun _ =>
    Spells.double.seq fun _ => Spells.double.seq fun _ => .pure _) fun h xs => by
    obtain ⟨_, _, ⟨⟩, ⟨⟩⟩ := h
    simp [ImageHeader.encode, SectionLengths.toList, UInt32.toInt32, and_assoc]

/-- What stands before the code of a method, with the length of the code last. -/
def readMetadata (bytes : Array UInt8) :
    CursorM (UInt8 × Int16 × List SlotRecord × List SlotRecord × UInt16 × UInt32) := do
  let retTag ← CursorM.byte bytes
  let retClass ← CursorM.signedWord bytes
  let args ← readSlots bytes
  let locals ← readSlots bytes
  let maxStack ← CursorM.word bytes
  let length ← CursorM.double bytes
  return (retTag, retClass, args, locals, maxStack, length)

/-- The method with that metadata and code. -/
def methodOf (t : UInt8 × Int16 × List SlotRecord × List SlotRecord × UInt16 × UInt32)
    (code : Array UInt8) (codeOffset : UInt32) : LoadedMethod where
  retTag := t.1
  retClass := t.2.1
  args := t.2.2.1
  locals := t.2.2.2.1
  maxStack := t.2.2.2.2.1
  code := code
  codeOffset := codeOffset

theorem spells_metadata : Spells bytes (readMetadata bytes) fun t xs =>
    t.2.2.1.length < 65536 ∧ t.2.2.2.1.length < 65536 ∧
      xs = t.1 :: Word.bytes16 t.2.1.toUInt16 ++ SlotRecord.encodeAll t.2.2.1 ++
        SlotRecord.encodeAll t.2.2.2.1 ++ Word.bytes16 t.2.2.2.2.1 ++ Word.bytes32 t.2.2.2.2.2 :=
  Spells.congr (Spells.byte.seq fun _ => Spells.signedWord.seq fun _ => spells_slots.bind fun _ =>
    spells_slots.bind fun _ => Spells.word.seq fun _ => Spells.double.seq fun _ => .pure _)
    fun t xs => by
    obtain ⟨_, _, _, _, _, _⟩ := t
    simp [and_assoc]

/-! ## Methods -/

/-- The metadata, which gives the length of the code, and the code of a method stand in the bytes, the code
in its section. -/
structure MethodAt (bytes : Array UInt8) (b : Bounds) (start : Nat) (m : LoadedMethod) (stop : Nat) :
    Prop where
  metadata : Holds bytes start m.metadata
  args : m.args.length < 65536
  locals : m.locals.length < 65536
  length : m.code.size < 4294967296
  code : Holds bytes m.codeOffset.toNat m.code.toList
  start_le : b.start ≤ m.codeOffset.toNat
  stop_eq : stop = m.codeOffset.toNat + m.code.size
  stop_le : stop ≤ b.stop

theorem readMethod_eq (bytes : Array UInt8) (b : Bounds) (start : Nat) (codeOffset : UInt32) :
    readMethod bytes b start codeOffset = do
      let t ← readMetadata bytes start
      let codeStart ← b.check "method code" codeOffset
      let code ← CursorM.take bytes t.1.2.2.2.2.2.toNat codeStart
      if b.stop < code.2 then throw (.badOffset "method code" codeOffset)
      return (methodOf t.1 code.1 codeOffset, code.2) := rfl

theorem readMethod_ok_iff {codeOffset : UInt32} (hstart : start ≤ bytes.size)
    (e : LoadedMethod × Nat) : readMethod bytes b start codeOffset = .ok e ↔
      e.1.codeOffset = codeOffset ∧ MethodAt bytes b start e.1 e.2 := by
  rw [readMethod_eq]
  constructor
  · intro h
    obtain ⟨⟨t, stop⟩, ht, h⟩ := except_bind_ok.1 h
    obtain ⟨codeStart, hcheck, h⟩ := except_bind_ok.1 h
    obtain ⟨⟨code, codeStop⟩, htake, h⟩ := except_bind_ok.1 h
    obtain ⟨rfl, hstart_le, -⟩ := (Bounds.check_ok_iff _).1 hcheck
    obtain ⟨hcode, hsize, rfl⟩ := take_ok_iff.1 htake
    obtain ⟨_, ⟨hargs, hlocals, rfl⟩, hheld, -⟩ := (spells_metadata start t stop hstart).1 ht
    split at h
    · cases h
    · rename_i hin
      cases h
      refine ⟨rfl, ?_, hargs, hlocals, ?_, hcode, hstart_le, by rw [methodOf, hsize],
        Nat.le_of_not_lt hin⟩
      · rw [MethodRecord.metadata, methodOf, position, hsize]
        simpa using hheld
      · rw [methodOf, hsize]
        exact t.2.2.2.2.2.toNat_lt
  · obtain ⟨m, stop⟩ := e
    rintro ⟨rfl, h⟩
    dsimp only at h
    have hstop := h.stop_eq
    have hin := h.stop_le
    have hstart_le := h.start_le
    have hlength := toNat_toUInt32 h.length
    refine except_bind_ok.2 ⟨((m.retTag, m.retClass, m.args, m.locals, m.maxStack,
      m.code.size.toUInt32), _), (spells_metadata start _ _ hstart).2
        ⟨_, ⟨h.args, h.locals, rfl⟩, h.metadata, rfl⟩, ?_⟩
    refine except_bind_ok.2 ⟨_, (Bounds.check_ok_iff _).2 ⟨rfl, hstart_le, by dsimp only; omega⟩, ?_⟩
    refine except_bind_ok.2 ⟨(m.code, stop), take_ok_iff.2 ⟨h.code, hlength.symm, by rw [hlength, hstop]⟩, ?_⟩
    rw [if_neg (by omega)]
    rfl

/-! ## Entries of the tables -/

variable (bytes b)

def methodEntry : CursorM (LoadedMethod × Nat) := do
  let start ← b.check "method metadata" (← CursorM.double bytes)
  let codeOffset ← CursorM.double bytes
  readMethod bytes b start codeOffset

def classEntry : CursorM (ClassRecord × Nat) := do
  let size ← CursorM.word bytes
  let count ← CursorM.word bytes
  let start ← b.check "field records" (← CursorM.double bytes)
  let fields ← readFields bytes count.toNat start
  return ({ size, fields := fields.1 }, fields.2)

def descriptorEntry : CursorM (Nat × Nat) := do
  let start ← b.check "descriptor" (← CursorM.double bytes)
  return (start, 0)

def dispatchEntry : CursorM (DispatchRecord × Nat) := do
  let start ← b.check "dispatch entry" (← CursorM.double bytes)
  readDispatch bytes start

def staticEntry : CursorM StaticRecord := do
  let tag ← CursorM.byte bytes
  let offset ← CursorM.word bytes
  let descriptor ← CursorM.word bytes
  let flags ← CursorM.byte bytes
  return { tag, offset, descriptor, host := flags &&& StaticRecord.hostFlag != 0 }

def staticTable : CursorM StaticsRecord := do
  let size ← CursorM.double bytes
  let count ← CursorM.word bytes
  let entries ← CursorM.many count.toNat (staticEntry bytes)
  return { size, entries }

theorem readMethods_eq : readMethods bytes b = readTable bytes b (methodEntry bytes b) >>= fun t =>
      b.finish "methods" t.2 >>= fun _ => pure t.1.toArray := rfl

theorem readClasses_eq : readClasses bytes b = readTable bytes b (classEntry bytes b) >>= fun t =>
      b.finish "classes" t.2 >>= fun _ => pure t.1 := rfl

theorem readDescriptors_eq :
    readDescriptors bytes b = readTable bytes b (descriptorEntry bytes b) >>= fun t =>
      slices bytes b.stop t.1 >>= fun payloads =>
        b.finish "descriptors" (if t.1.isEmpty then t.2 else max t.2 b.stop) >>= fun _ =>
          pure payloads := rfl

theorem readDispatches_eq :
    readDispatches bytes b = readTable bytes b (dispatchEntry bytes b) >>= fun t =>
      b.finish "dispatch" t.2 >>= fun _ => pure t.1 := rfl

theorem readStatics_eq : readStatics bytes b = staticTable bytes b.start >>= fun t =>
      b.finish "statics" t.2 >>= fun _ => pure t.1 := rfl

/-- The row of a method names its metadata and its code. -/
def MethodRow (m : LoadedMethod) (stop : Nat) (row : List UInt8) : Prop :=
  ∃ start, b.Has start ∧ MethodAt bytes b start.toNat m stop ∧
    row = Word.bytes32 start ++ Word.bytes32 m.codeOffset

/-- The row of a class has its size and names its fields. -/
def ClassRow (c : ClassRecord) (stop : Nat) (row : List UInt8) : Prop :=
  ∃ start, b.Has start ∧ c.fields.length < 65536 ∧
    Holds bytes start.toNat (c.fields.flatMap FieldRecord.encode) ∧
    stop = start.toNat + (c.fields.flatMap FieldRecord.encode).length ∧
    row = Word.bytes16 c.size ++ (Image.word c.fields.length ++ Word.bytes32 start)

/-- The row of a descriptor names its first byte. -/
def DescriptorRow (start stop : Nat) (row : List UInt8) : Prop :=
  row = Image.position start ∧ stop = 0 ∧ b.start ≤ start ∧ start ≤ b.stop ∧ start < 4294967296

/-- The row of a virtual slot names its classes and methods. -/
def DispatchRow (d : DispatchRecord) (stop : Nat) (row : List UInt8) : Prop :=
  ∃ start, b.Has start ∧ d.implementors.length < 65536 ∧ Holds bytes start.toNat d.encode ∧
    stop = start.toNat + d.encode.length ∧ row = Word.bytes32 start

variable {bytes b}

/-- The row of a static field. -/
def StaticRow (f : StaticRecord) (row : List UInt8) : Prop :=
  ∃ flags : UInt8, f.host = (flags &&& StaticRecord.hostFlag != 0) ∧
    row = f.tag :: (Word.bytes16 f.offset ++ (Word.bytes16 f.descriptor ++ [flags]))

theorem spells_methodEntry (hb : b.stop ≤ bytes.size) :
    Spells bytes (methodEntry bytes b) fun e row => MethodRow bytes b e.1 e.2 row := by
  refine Spells.congr (Spells.offset _ hb fun _ hstart => Spells.double.seq fun _ =>
    Spells.lift (readMethod_ok_iff hstart)) fun e row => ?_
  simp [MethodRow]

theorem spells_classEntry (hb : b.stop ≤ bytes.size) :
    Spells bytes (classEntry bytes b) fun e row => ClassRow bytes b e.1 e.2 row := by
  refine Spells.congr (Spells.word.seq fun _ => Spells.word.seq fun count => Spells.offset _ hb
    fun _ hstart => ((spells_fields count.toNat).at_start hstart).bind fun _ => .pure _)
    fun e row => ⟨?_, ?_⟩
  · rintro ⟨size, _, ⟨count, _, ⟨start, hstart, _, ⟨⟨fields, _⟩, _, _, ⟨⟨_, ⟨hcount, rfl⟩, hheld, hstop⟩,
      rfl⟩, ⟨rfl, rfl⟩, rfl⟩, rfl⟩, rfl⟩, rfl⟩
    exact ⟨start, hstart, hcount ▸ count.toNat_lt, hheld, hstop, by simp [Image.word, hcount]⟩
  · rintro ⟨start, hstart, hcount, hheld, hstop, rfl⟩
    exact ⟨_, _, ⟨_, _, ⟨start, hstart, _, ⟨(_, _), _, _, ⟨⟨_, ⟨(toNat_toUInt16 hcount).symm, rfl⟩, hheld,
      hstop⟩, rfl⟩, ⟨rfl, rfl⟩, rfl⟩, rfl⟩, rfl⟩, by simp [Image.word]⟩

theorem spells_descriptorEntry (hb : b.stop ≤ bytes.size) :
    Spells bytes (descriptorEntry bytes b) fun e row => DescriptorRow b e.1 e.2 row := by
  refine Spells.congr (Spells.offset _ hb fun _ _ => .pure _) fun e row => ⟨?_, ?_⟩
  · rintro ⟨start, hstart, _, ⟨rfl, rfl⟩, rfl⟩
    exact ⟨by simp [position], rfl, hstart.1, hstart.2, start.toNat_lt⟩
  · obtain ⟨start, stop⟩ := e
    rintro ⟨rfl, rfl, h₁, h₂, hlt⟩
    have hword : start.toUInt32.toNat = start := toNat_toUInt32 hlt
    exact ⟨start.toUInt32, by rw [Bounds.Has, hword]; exact ⟨h₁, h₂⟩, _, ⟨by rw [hword], rfl⟩,
      by simp [position]⟩

theorem spells_dispatchEntry (hb : b.stop ≤ bytes.size) :
    Spells bytes (dispatchEntry bytes b) fun e row => DispatchRow bytes b e.1 e.2 row := by
  refine Spells.congr (Spells.offset _ hb fun _ hstart => spells_dispatch.at_start hstart)
    fun e row => ?_
  simp [DispatchRow, and_assoc]

theorem spells_staticTable : Spells bytes (staticTable bytes) fun s xs =>
    s.entries.length < 65536 ∧ ∃ rows, List.Forall₂ StaticRow s.entries rows ∧
      xs = Word.bytes32 s.size ++ (Image.word s.entries.length ++ rows.flatten) := by
  have entry : Spells bytes (staticEntry bytes) StaticRow := by
    refine Spells.congr (Spells.byte.seq fun _ => Spells.word.seq fun _ => Spells.word.seq fun _ =>
      Spells.byte.seq fun _ => .pure _) fun f row => ?_
    cases f
    simp [StaticRow, and_assoc]
  refine Spells.congr (Spells.double.seq fun _ => Spells.word.seq fun count =>
    (entry.many count.toNat).bind fun _ => .pure _) fun s xs => ?_
  cases s
  simp [and_assoc, exists_count, Image.word]

/-! ## Sections -/

@[simp] theorem length_word (n : Nat) : (Image.word n).length = 2 := rfl

theorem length_flatMap_const {f : α → List UInt8} (items : List α)
    (h : ∀ a ∈ items, (f a).length = n) : (items.flatMap f).length = n * items.length := by
  induction items with
  | nil => rfl
  | cons a items ih =>
    rw [flatMap_cons, length_append, h a mem_cons_self,
      ih fun b hb => h b (mem_cons_of_mem _ hb), length_cons, Nat.mul_succ]
    omega

/-- The furthest position that the entries reach, from a position on. -/
def furthest (position : Nat) (entries : List (α × Nat)) : Nat :=
  entries.foldl (fun position e => max position e.2) position

theorem le_furthest : ∀ (position : Nat) (entries : List (α × Nat)),
    position ≤ furthest position entries
  | _, [] => Nat.le_refl _
  | _, _ :: entries => Nat.le_trans (Nat.le_max_left _ _) (le_furthest _ entries)

/-- The count, the rows and what they reach, up to `stop`. -/
structure TableRows (bytes : Array UInt8) (start : Nat) (Row : α → Nat → List UInt8 → Prop)
    (items : List α) (entries : List (α × Nat)) (rows : List (List UInt8)) (stop : Nat) : Prop where
  items_eq : items = entries.map (·.1)
  count : items.length < 65536
  shaped : List.Forall₂ (fun e row => Row e.1 e.2 row) entries rows
  held : Holds bytes start (Image.word items.length ++ rows.flatten)
  stop_eq : stop = furthest (start + 2 + rows.flatten.length) entries

theorem readTable_ok_iff
    (hentry : Spells bytes entry fun e row => Row e.1 e.2 row) (hb : b.start ≤ bytes.size) :
    readTable bytes b entry = .ok t ↔
      ∃ entries rows, TableRows bytes b.start Row t.1 entries rows t.2 := by
  have hlength : ∀ (n : Nat) (rows : List (List UInt8)),
      b.start + (word n ++ rows.flatten).length = b.start + 2 + rows.flatten.length := by
    intro n rows
    rw [length_append, length_word, Nat.add_assoc]
  constructor
  · intro h
    obtain ⟨⟨entries, stop⟩, hread, h⟩ := except_bind_ok.1 h
    cases h
    obtain ⟨_, ⟨hcount, rows, hrows, rfl⟩, hheld, rfl⟩ := (hentry.counted _ _ _ hb).1 hread
    refine ⟨entries, rows, rfl, by simpa using hcount, hrows, by simpa using hheld, ?_⟩
    rw [hlength]
    rfl
  · obtain ⟨items, stop⟩ := t
    rintro ⟨entries, rows, rfl, hcount, hrows, hheld, rfl⟩
    rw [length_map] at hcount hheld
    refine except_bind_ok.2 ⟨(entries, _), (hentry.counted _ _ _ hb).2
      ⟨_, ⟨hcount, rows, hrows, rfl⟩, hheld, (hlength _ _).symm⟩, rfl⟩

theorem finish_ok_iff {u : Unit} :
    b.finish name stop = .ok u ↔ stop = b.stop := by
  unfold Bounds.finish
  split <;> simp [*]

/-- A section that is a table ends where its rows or the furthest of its items end. -/
def TableRead (bytes : Array UInt8) (b : Bounds) (Row : α → Nat → List UInt8 → Prop)
    (items : List α) : Prop :=
  ∃ entries rows, TableRows bytes b.start Row items entries rows b.stop

theorem tableRead_iff
    (hentry : Spells bytes entry fun e row => Row e.1 e.2 row) (hb : b.start ≤ bytes.size)
    {g : List α → β} {x : β} :
    (readTable bytes b entry >>= fun t => b.finish name t.2 >>= fun _ => pure (g t.1)) = .ok x ↔
      ∃ items, TableRead bytes b Row items ∧ g items = x := by
  simp only [except_bind_ok, finish_ok_iff, except_pure_ok, readTable_ok_iff hentry hb]
  constructor
  · rintro ⟨t, ⟨entries, rows, hrows⟩, _, hstop, hx⟩
    exact ⟨t.1, ⟨entries, rows, hstop ▸ hrows⟩, hx⟩
  · rintro ⟨items, ⟨entries, rows, hrows⟩, hx⟩
    exact ⟨(items, b.stop), ⟨entries, rows, hrows⟩, (), rfl, hx⟩

/-- The static fields stand behind their size and their number and fill the section. -/
def StaticsRead (bytes : Array UInt8) (b : Bounds) (s : StaticsRecord) : Prop :=
  s.entries.length < 65536 ∧ ∃ rows, List.Forall₂ StaticRow s.entries rows ∧
    Holds bytes b.start (Word.bytes32 s.size ++ (Image.word s.entries.length ++ rows.flatten)) ∧
    b.start + 6 + rows.flatten.length = b.stop

section
variable (hb : b.start ≤ b.stop) (hstop : b.stop ≤ bytes.size)
include hb hstop

theorem readMethods_ok_iff {x : Array LoadedMethod} :
    readMethods bytes b = .ok x ↔ TableRead bytes b (MethodRow bytes b) x.toList := by
  rw [readMethods_eq, tableRead_iff (spells_methodEntry hstop) (Nat.le_trans hb hstop)]
  constructor
  · rintro ⟨items, h, rfl⟩
    exact h
  · exact fun h => ⟨_, h, rfl⟩

theorem readClasses_ok_iff {x : List ClassRecord} :
    readClasses bytes b = .ok x ↔ TableRead bytes b (ClassRow bytes b) x := by
  rw [readClasses_eq,
    tableRead_iff (g := fun t => t) (spells_classEntry hstop) (Nat.le_trans hb hstop)]
  exact exists_eq_right

theorem readDispatches_ok_iff {x : List DispatchRecord} :
    readDispatches bytes b = .ok x ↔ TableRead bytes b (DispatchRow bytes b) x := by
  rw [readDispatches_eq,
    tableRead_iff (g := fun t => t) (spells_dispatchEntry hstop) (Nat.le_trans hb hstop)]
  exact exists_eq_right

theorem readStatics_ok_iff {x : StaticsRecord} : readStatics bytes b = .ok x ↔ StaticsRead bytes b x := by
  have hb := Nat.le_trans hb hstop
  rw [readStatics_eq]
  simp only [except_bind_ok, finish_ok_iff, except_pure_ok]
  constructor
  · rintro ⟨⟨_, stop⟩, hread, _, hstop, rfl⟩
    obtain ⟨_, ⟨hcount, rows, hrows, rfl⟩, hheld, rfl⟩ := (spells_staticTable _ _ _ hb).1 hread
    simp only [length_append, length_bytes32, length_word] at hstop
    exact ⟨hcount, rows, hrows, hheld, by omega⟩
  · rintro ⟨hcount, rows, hrows, hheld, hstop⟩
    refine ⟨(x, b.stop), (spells_staticTable _ _ _ hb).2 ⟨_, ⟨hcount, rows, hrows, rfl⟩, hheld, ?_⟩,
      (), rfl, rfl⟩
    simp only [length_append, length_bytes32, length_word]
    omega

end

/-! ## Descriptors -/

theorem furthest_zero {entries : List (α × Nat)} (h : ∀ e ∈ entries, e.2 = 0) (position : Nat) :
    furthest position entries = position := by
  induction entries generalizing position with
  | nil => rfl
  | cons e entries ih =>
    have hzero := h e mem_cons_self
    show furthest (max position e.2) entries = position
    rw [hzero, Nat.max_zero, ih fun e he => h e (mem_cons_of_mem _ he)]

theorem descriptorRows_iff :
    (∃ entries rows, TableRows bytes b.start (DescriptorRow b) starts entries rows stop) ↔
      starts.length < 65536 ∧
      (∀ start ∈ starts, b.start ≤ start ∧ start ≤ b.stop ∧ start < 4294967296) ∧
      Holds bytes b.start (Image.word starts.length ++ starts.flatMap Image.position) ∧
      stop = b.start + 2 + 4 * starts.length := by
  have hlength : (starts.flatMap position).length = 4 * starts.length :=
    length_flatMap_const _ fun _ _ => rfl
  constructor
  · rintro ⟨entries, rows, hitems, hcount, hshaped, hheld, hstop⟩
    have hflat : rows.flatten = starts.flatMap position := by
      rw [forall₂_encode.1 (hshaped.imp fun _ _ h => h.1), hitems, flatMap_map, flatMap_def]
    have hrow : ∀ e ∈ entries, ∃ row, DescriptorRow b e.1 e.2 row := fun e he =>
      (forall₂_mem_right hshaped.flip e he).imp fun _ h => h.2
    rw [hflat] at hheld hstop
    refine ⟨hcount, fun start hstart => ?_, hheld, ?_⟩
    · rw [hitems] at hstart
      obtain ⟨e, he, rfl⟩ := mem_map.1 hstart
      obtain ⟨_, -, -, h⟩ := hrow e he
      exact h
    · rw [hstop, furthest_zero (fun e he => (hrow e he).elim fun _ h => h.2.1), hlength]
  · rintro ⟨hcount, hstarts, hheld, rfl⟩
    refine ⟨starts.map (·, 0), starts.map position, by simp [Function.comp_def], hcount, ?_,
      by rwa [← flatMap_def], ?_⟩
    · exact forall₂_map_left_iff.2 (forall₂_map_right_iff.2
        (forall₂_same.2 fun start hstart => ⟨rfl, rfl, hstarts start hstart⟩))
    · rw [furthest_zero (by simp), ← flatMap_def, hlength]

theorem next_le (hstarts : ∀ start ∈ starts, start ≤ stop) :
    ∀ e ∈ starts.zip (starts.tail ++ [stop]), e.2 ≤ stop := by
  intro e he
  rcases mem_append.1 (of_mem_zip he).2 with hnext | hlast
  · exact hstarts _ (mem_of_mem_tail hnext)
  · exact Nat.le_of_eq (mem_singleton.1 hlast)

theorem zip_next (start stop : Nat) (starts : List Nat) :
    (start :: starts).zip (starts ++ [stop]) =
      (start, starts.headD stop) :: starts.zip (starts.tail ++ [stop]) := by
  cases starts <;> rfl

variable {payloads : List (List UInt8)} {p : LoadedImage}

theorem headD_placements (h : start + payloads.flatten.length = stop) :
    (placements start (payloads.map List.length)).headD stop = start := by
  cases payloads with
  | nil => exact h.symm
  | cons => rfl

theorem forall₂_placed (hstop : stop ≤ bytes.size) :
    ∀ {starts : List Nat} {payloads : List (List UInt8)},
      List.Forall₂ (fun e payload => Holds bytes e.1 payload ∧ e.1 + payload.length = e.2)
        (starts.zip (starts.tail ++ [stop])) payloads ↔
      ∃ start, starts = placements start (payloads.map List.length) ∧
        Holds bytes start payloads.flatten ∧ start + payloads.flatten.length = stop
  | [], payloads => by
    constructor
    · intro h
      cases h
      exact ⟨stop, rfl, .nil hstop, rfl⟩
    · rintro ⟨start, hstarts, -⟩
      cases payloads with
      | nil => exact .nil
      | cons => cases hstarts
  | start :: starts, payloads => by
    rw [tail_cons, zip_next]
    constructor
    · intro h
      obtain ⟨payload, rest, ⟨hheld, hlength⟩, hrest, rfl⟩ := forall₂_cons_left_iff.1 h
      obtain ⟨first, rfl, hflat, hend⟩ := (forall₂_placed hstop).1 hrest
      rw [headD_placements hend] at hlength
      dsimp only at hlength
      subst hlength
      exact ⟨start, rfl, append.2 ⟨hheld, hflat⟩, by simp at hend ⊢; omega⟩
    · rintro ⟨first, hstarts, hheld, hend⟩
      cases payloads with
      | nil => cases hstarts
      | cons payload rest =>
        obtain ⟨rfl, rfl⟩ := cons.inj hstarts
        rw [flatten_cons, length_append, ← Nat.add_assoc] at hend
        obtain ⟨hfirst, hrest⟩ := append.1 hheld
        exact .cons ⟨hfirst, (headD_placements hend).symm⟩
          ((forall₂_placed hstop).2 ⟨_, rfl, hrest, hend⟩)

theorem forall₂_congr_mem {R S : α → β → Prop} : ∀ {xs : List α} {ys : List β},
    (∀ x ∈ xs, ∀ y, R x y ↔ S x y) → (List.Forall₂ R xs ys ↔ List.Forall₂ S xs ys)
  | [], _, _ => by rw [forall₂_nil_left_iff, forall₂_nil_left_iff]
  | x :: xs, _, h => by
    simp [forall₂_cons_left_iff, h x mem_cons_self,
      forall₂_congr_mem fun y hy => h y (mem_cons_of_mem _ hy)]

theorem slices_ok_iff (hstarts : ∀ start ∈ starts, start ≤ stop) (hstop : stop ≤ bytes.size) :
    slices bytes stop starts = .ok payloads ↔
      ∃ start, starts = placements start (payloads.map List.length) ∧
        Holds bytes start payloads.flatten ∧ start + payloads.flatten.length = stop := by
  rw [← forall₂_placed hstop]
  refine except_mapM_ok.trans (forall₂_congr_mem fun e he payload => ?_)
  have hnext := Nat.le_trans (next_le hstarts e he) hstop
  dsimp only at hnext ⊢
  constructor
  · intro h
    split at h
    · cases h
    · cases h
      refine ⟨.of_extract (by omega) hnext, ?_⟩
      rw [Array.length_toList, Array.size_extract]
      omega
  · rintro ⟨hheld, hlength⟩
    rw [if_neg (by omega), ← hlength, hheld.extract]
    rfl

/-- The payloads lie end to end, from the starts that the table gives to the end of the section. -/
structure PayloadsAt (bytes : Array UInt8) (b : Bounds) (start : Nat)
    (payloads : List (List UInt8)) : Prop where
  count : payloads.length < 65536
  starts : ∀ first ∈ placements start (payloads.map List.length),
    b.start ≤ first ∧ first ≤ b.stop ∧ first < 4294967296
  table : Holds bytes b.start (Image.word payloads.length ++
    (placements start (payloads.map List.length)).flatMap Image.position)
  held : Holds bytes start payloads.flatten
  stop_eq : start + payloads.flatten.length = b.stop
  table_le : b.start + 2 + 4 * payloads.length ≤ b.stop
  none_left : payloads = [] → b.start + 2 = b.stop

theorem readDescriptors_ok_iff (hb : b.start ≤ b.stop) (hstop : b.stop ≤ bytes.size)
    {x : List (List UInt8)} :
    readDescriptors bytes b = .ok x ↔ ∃ start, PayloadsAt bytes b start x := by
  have hsize := Nat.le_trans hb hstop
  rw [readDescriptors_eq]
  simp only [except_bind_ok, finish_ok_iff, except_pure_ok,
    readTable_ok_iff (spells_descriptorEntry hstop) hsize, descriptorRows_iff]
  constructor
  · rintro ⟨⟨starts, stop⟩, ⟨hcount, hstarts, hheld, hreach⟩, _, hslices, _, hfinish, rfl⟩
    obtain ⟨start, rfl, hflat, hend⟩ :=
      (slices_ok_iff (fun first hfirst => (hstarts first hfirst).2.1) hstop).1 hslices
    rw [length_placements, length_map] at hcount hheld hreach
    refine ⟨start, hcount, hstarts, hheld, hflat, hend, ?_, ?_⟩
    · split at hfinish <;> omega
    · rintro rfl
      exact hreach ▸ hfinish
  · rintro ⟨start, h⟩
    have hlength : (placements start (x.map length)).length = x.length := by simp
    refine ⟨(placements start (x.map length), b.start + 2 + 4 * x.length),
      ⟨hlength ▸ h.count, h.starts, hlength.symm ▸ h.table, hlength.symm ▸ rfl⟩, x,
      (slices_ok_iff (fun first hfirst => (h.starts first hfirst).2.1) hstop).2
        ⟨start, rfl, h.held, h.stop_eq⟩, (), ?_, rfl⟩
    split
    · rename_i hempty
      have hnone : x = [] := by
        simpa [← List.length_eq_zero_iff] using hempty
      have hleft := h.none_left hnone
      rw [hnone]
      exact hleft
    · exact Nat.max_eq_right h.table_le

/-! ## The image -/

/-- The methods section, behind the header, and then each section behind the one before. -/
def methodBounds (h : ImageHeader) : Bounds := nextBounds ⟨0, ImageHeader.size⟩ h.sections.methods

@[inherit_doc methodBounds]
def classBounds (h : ImageHeader) : Bounds := nextBounds (methodBounds h) h.sections.classes

@[inherit_doc methodBounds]
def descriptorBounds (h : ImageHeader) : Bounds := nextBounds (classBounds h) h.sections.descriptors

@[inherit_doc methodBounds]
def dispatchBounds (h : ImageHeader) : Bounds := nextBounds (descriptorBounds h) h.sections.dispatch

@[inherit_doc methodBounds]
def staticBounds (h : ImageHeader) : Bounds := nextBounds (dispatchBounds h) h.sections.statics

/-- All parts of a loaded image stand in the bytes, each in its section, and the sections fill the bytes. -/
structure StandsIn (bytes : Array UInt8) (p : LoadedImage) : Prop where
  header : Holds bytes 0 p.header.encode
  size : ImageHeader.size + p.header.sections.methods.toNat + p.header.sections.classes.toNat +
    p.header.sections.descriptors.toNat + p.header.sections.dispatch.toNat +
    p.header.sections.statics.toNat = bytes.size
  methods : TableRead bytes (methodBounds p.header) (MethodRow bytes (methodBounds p.header))
    p.methods.toList
  classes : TableRead bytes (classBounds p.header) (ClassRow bytes (classBounds p.header)) p.classes
  descriptors : ∃ start, PayloadsAt bytes (descriptorBounds p.header) start p.descriptors
  dispatch : TableRead bytes (dispatchBounds p.header) (DispatchRow bytes (dispatchBounds p.header))
    p.dispatch
  statics : StaticsRead bytes (staticBounds p.header) p.statics

def readSections (bytes : Array UInt8) (header : ImageHeader) : Except ImageError LoadedImage := do
  let methods ← readMethods bytes (methodBounds header)
  let classes ← readClasses bytes (classBounds header)
  let descriptors ← readDescriptors bytes (descriptorBounds header)
  let dispatch ← readDispatches bytes (dispatchBounds header)
  let statics ← readStatics bytes (staticBounds header)
  return { header, methods, classes, descriptors, dispatch, statics }

theorem read_eq (bytes : Array UInt8) : read bytes = readHeader bytes 0 >>= fun t =>
    if bytes.size < (staticBounds t.1).stop then
      throw (.truncated bytes.size ((staticBounds t.1).stop - bytes.size))
    else if (staticBounds t.1).stop < bytes.size then
      throw (.trailingBytes (bytes.size - (staticBounds t.1).stop))
    else readSections bytes t.1 := rfl

theorem bounds_le (h : ImageHeader) :
    (methodBounds h).start ≤ (methodBounds h).stop ∧ (methodBounds h).stop = (classBounds h).start ∧
    (classBounds h).start ≤ (classBounds h).stop ∧ (classBounds h).stop = (descriptorBounds h).start ∧
    (descriptorBounds h).start ≤ (descriptorBounds h).stop ∧
    (descriptorBounds h).stop = (dispatchBounds h).start ∧
    (dispatchBounds h).start ≤ (dispatchBounds h).stop ∧
    (dispatchBounds h).stop = (staticBounds h).start ∧ (staticBounds h).start ≤ (staticBounds h).stop :=
  ⟨Nat.le_add_right _ _, rfl, Nat.le_add_right _ _, rfl, Nat.le_add_right _ _, rfl, Nat.le_add_right _ _,
    rfl, Nat.le_add_right _ _⟩

theorem readSections_ok_iff {header : ImageHeader}
    (hsize : (staticBounds header).stop = bytes.size) (hheld : Holds bytes 0 header.encode) :
    readSections bytes header = .ok p ↔ p.header = header ∧ p.StandsIn bytes := by
  have hbounds := bounds_le header
  have hmethods := fun x => readMethods_ok_iff (x := x) (by omega)
    (show (methodBounds header).stop ≤ bytes.size by omega)
  have hclasses := fun x => readClasses_ok_iff (x := x) (by omega)
    (show (classBounds header).stop ≤ bytes.size by omega)
  have hdescriptors := fun x => readDescriptors_ok_iff (x := x) (by omega)
    (show (descriptorBounds header).stop ≤ bytes.size by omega)
  have hdispatch := fun x => readDispatches_ok_iff (x := x) (by omega)
    (show (dispatchBounds header).stop ≤ bytes.size by omega)
  have hstatics := fun x => readStatics_ok_iff (x := x) (by omega)
    (show (staticBounds header).stop ≤ bytes.size by omega)
  unfold readSections
  simp only [except_bind_ok, except_pure_ok, hmethods, hclasses, hdescriptors, hdispatch, hstatics]
  constructor
  · rintro ⟨methods, hmethods, classes, hclasses, descriptors, hdescriptors, dispatch, hdispatch,
      statics, hstatics, rfl⟩
    exact ⟨rfl, hheld, hsize, hmethods, hclasses, hdescriptors, hdispatch, hstatics⟩
  · rintro ⟨rfl, h⟩
    exact ⟨_, h.methods, _, h.classes, _, h.descriptors, _, h.dispatch, _, h.statics, rfl⟩

theorem read_ok_iff : read bytes = .ok p ↔ p.StandsIn bytes := by
  rw [read_eq]
  constructor
  · intro h
    obtain ⟨⟨header, position⟩, hheader, h⟩ := except_bind_ok.1 h
    obtain ⟨_, rfl, hheld, -⟩ := (spells_header 0 header position (Nat.zero_le _)).1 hheader
    dsimp only at h
    split at h
    · cases h
    split at h
    · cases h
    exact ((readSections_ok_iff (by omega) hheld).1 h).2
  · intro h
    have hsize : (staticBounds p.header).stop = bytes.size := h.size
    refine except_bind_ok.2 ⟨(p.header, _),
      (spells_header 0 p.header _ (Nat.zero_le _)).2 ⟨_, rfl, h.header, rfl⟩, ?_⟩
    dsimp only
    rw [if_neg (by omega), if_neg (by omega)]
    exact (readSections_ok_iff hsize h.header).2 ⟨rfl, h⟩

end LoadedImage

/-! ## Checked slices and subtractions -/

/-- Why checked reading stops. -/
inductive ReadFault where
  | refused (e : ImageError)
  | slice (start stop : Nat)
  | subtraction (a b : Nat)
  deriving DecidableEq, Inhabited

namespace Checked

variable (bytes b)

def ofExcept (x : Except ImageError α) : Except ReadFault α := x.mapError .refused

def ofCursor (x : CursorM α) : StateT Nat (Except ReadFault) α := fun position =>
  ofExcept (x position)

def slice (start stop : Nat) : Except ReadFault (Array UInt8) :=
  if start ≤ stop ∧ stop ≤ bytes.size then .ok (bytes.extract start stop)
  else .error (.slice start stop)

def subtract (a b : Nat) : Except ReadFault Nat :=
  if b ≤ a then .ok (a - b) else .error (.subtraction a b)

def take (n : Nat) : StateT Nat (Except ReadFault) (Array UInt8) :=
  fun position =>
    if position + n ≤ bytes.size then
      slice bytes position (position + n) >>= fun xs => pure (xs, position + n)
    else .error (.refused (.truncated position n))

def finish (name : String) (furthest : Nat) : Except ReadFault Unit :=
  subtract furthest b.start >>= fun actual =>
    if b.start + actual = b.stop then pure ()
    else subtract b.stop b.start >>= fun declared =>
      throw (.refused (.sectionLength name declared.toUInt32 actual))

def readMethod (start : Nat) (codeOffset : UInt32) : Except ReadFault (LoadedMethod × Nat) := do
  let t ← ofCursor (LoadedImage.readMetadata bytes) start
  let codeStart ← ofExcept (b.check "method code" codeOffset)
  let code ← take bytes t.1.2.2.2.2.2.toNat codeStart
  if b.stop < code.2 then throw (.refused (.badOffset "method code" codeOffset))
  return (LoadedImage.methodOf t.1 code.1 codeOffset, code.2)

def methodEntry : StateT Nat (Except ReadFault) (LoadedMethod × Nat) := do
  let start ← ofExcept (b.check "method metadata" (← ofCursor (CursorM.double bytes)))
  let codeOffset ← ofCursor (CursorM.double bytes)
  readMethod bytes b start codeOffset

def many (n : Nat) (item : StateT Nat (Except ReadFault) α) :
    StateT Nat (Except ReadFault) (List α) := (List.replicate n ()).mapM fun _ => item

def readTable (entry : StateT Nat (Except ReadFault) (α × Nat)) : Except ReadFault (List α × Nat) := do
  let t ← (ofCursor (CursorM.word bytes) >>= fun count => many count.toNat entry) b.start
  return (t.1.map (·.1), LoadedImage.furthest t.2 t.1)

/-- A table that fills its section. -/
def readSection (name : String)
    (entry : StateT Nat (Except ReadFault) (α × Nat)) : Except ReadFault (List α) := do
  let t ← readTable bytes b entry
  finish b name t.2
  return t.1

def slices (stop : Nat) (starts : List Nat) : Except ReadFault (List (List UInt8)) :=
  (starts.zip (starts.tail ++ [stop])).mapM fun e =>
    if e.2 < e.1 then throw (.refused (.badOffset "descriptor" e.1.toUInt32))
    else slice bytes e.1 e.2 >>= fun xs => pure xs.toList

def readDescriptors : Except ReadFault (List (List UInt8)) := do
  let t ← readTable bytes b (ofCursor (LoadedImage.descriptorEntry bytes b))
  let descriptors ← slices bytes b.stop t.1
  finish b "descriptors" (if t.1.isEmpty then t.2 else max t.2 b.stop)
  return descriptors

def readStatics : Except ReadFault StaticsRecord := do
  let t ← ofCursor (LoadedImage.staticTable bytes) b.start
  finish b "statics" t.2
  return t.1

def readSections (h : ImageHeader) : Except ReadFault LoadedImage := do
  let methodBounds := LoadedImage.methodBounds h
  let classBounds := LoadedImage.classBounds h
  let dispatchBounds := LoadedImage.dispatchBounds h
  let methods ← readSection bytes methodBounds "methods" (methodEntry bytes methodBounds)
  let classes ← readSection bytes classBounds "classes"
    (ofCursor (LoadedImage.classEntry bytes classBounds))
  let descriptors ← readDescriptors bytes (LoadedImage.descriptorBounds h)
  let dispatch ← readSection bytes dispatchBounds "dispatch"
    (ofCursor (LoadedImage.dispatchEntry bytes dispatchBounds))
  let statics ← readStatics bytes (LoadedImage.staticBounds h)
  return { header := h, methods := methods.toArray, classes, descriptors, dispatch, statics }

/-- Takes an image apart like `LoadedImage.read`, but a slice that leaves the bytes and a subtraction below
zero are faults. -/
def read : Except ReadFault LoadedImage :=
  ofCursor (LoadedImage.readHeader bytes) 0 >>= fun t =>
    let stop := (LoadedImage.staticBounds t.1).stop
    if bytes.size < stop then
      subtract stop bytes.size >>= fun needed => throw (.refused (.truncated bytes.size needed))
    else if stop < bytes.size then
      subtract bytes.size stop >>= fun extra => throw (.refused (.trailingBytes extra))
    else readSections bytes t.1

/-! ## No faults -/

variable {bytes b}

@[simp] theorem ofExcept_bind (x : Except ImageError α) (f : α → Except ImageError β) :
    ofExcept (x >>= f) = ofExcept x >>= fun a => ofExcept (f a) := by
  cases x <;> rfl

theorem ofCursor_bind (x : CursorM α) (f : α → CursorM β) :
    ofCursor (x >>= f) = ofCursor x >>= fun a => ofCursor (f a) := by
  funext position
  exact ofExcept_bind _ _

theorem ofCursor_lift (x : Except ImageError α) :
    ofCursor (monadLift x) = monadLift (ofExcept x) := by
  cases x <;> rfl

theorem ofCursor_many {item : CursorM α} : ∀ n, ofCursor (CursorM.many n item) = many n (ofCursor item)
  | 0 => rfl
  | n + 1 => by
    have hrest : ofCursor (CursorM.many n item) = many n (ofCursor item) := ofCursor_many n
    unfold CursorM.many many at hrest ⊢
    rw [replicate_succ, mapM_cons, mapM_cons, ofCursor_bind]
    refine congrArg _ (funext fun a => ?_)
    rw [ofCursor_bind, hrest]
    rfl

theorem slice_ok (h₁ : start ≤ stop) (h₂ : stop ≤ bytes.size) :
    slice bytes start stop = .ok (bytes.extract start stop) := if_pos ⟨h₁, h₂⟩

theorem subtract_ok {a b : Nat} (h : b ≤ a) : subtract a b = .ok (a - b) := if_pos h

theorem take_eq (n : Nat) : take bytes n = ofCursor (CursorM.take bytes n) := by
  funext position
  unfold take ofCursor CursorM.take
  by_cases h : position + n ≤ bytes.size
  · rw [if_pos h, if_pos h, slice_ok (Nat.le_add_right _ _) h]
    rfl
  · rw [if_neg h, if_neg h]
    rfl

theorem finish_eq {furthest : Nat} (h₁ : b.start ≤ furthest) (h₂ : b.start ≤ b.stop) :
    finish b name furthest = ofExcept (b.finish name furthest) := by
  unfold finish Bounds.finish
  rw [subtract_ok h₁, subtract_ok h₂]
  show (if b.start + (furthest - b.start) = b.stop then _ else _) = _
  rw [Nat.add_sub_cancel' h₁]
  split <;> rfl

theorem readMethod_eq (start : Nat) (codeOffset : UInt32) :
    readMethod bytes b start codeOffset =
      ofExcept (LoadedImage.readMethod bytes b start codeOffset) := by
  simp only [LoadedImage.readMethod_eq, readMethod, take_eq, ofExcept_bind, apply_ite ofExcept]
  rfl

theorem methodEntry_eq : methodEntry bytes b = ofCursor (LoadedImage.methodEntry bytes b) := by
  simp only [methodEntry, LoadedImage.methodEntry, readMethod_eq, ofCursor_bind, ← ofCursor_lift]

theorem readTable_eq (entry : CursorM (α × Nat)) :
    readTable bytes b (ofCursor entry) = ofExcept (LoadedImage.readTable bytes b entry) := by
  unfold readTable LoadedImage.readTable
  simp only [← ofCursor_many, ← ofCursor_bind, ofExcept_bind]
  rfl

theorem finished_eq {x : Except ImageError α} {reach : α → Nat} (name : String) (g : α → β)
    (hreach : ∀ t, x = .ok t → b.start ≤ reach t) (hb : b.start ≤ b.stop) :
    (ofExcept x >>= fun t => finish b name (reach t) >>= fun _ => pure (g t)) =
      ofExcept (x >>= fun t => b.finish name (reach t) >>= fun _ => pure (g t)) := by
  cases hx : x with
  | error e => rfl
  | ok t =>
    show (finish b name (reach t) >>= fun _ => _) = ofExcept (b.finish name (reach t) >>= _)
    rw [finish_eq (hreach t hx) hb, ofExcept_bind]
    rfl

theorem start_le
    (hentry : CursorM.Spells bytes entry fun e row => Row e.1 e.2 row) (hb : b.start ≤ bytes.size)
    (h : LoadedImage.readTable bytes b entry = .ok t) : b.start ≤ t.2 := by
  obtain ⟨entries, rows, hrows⟩ := (readTable_ok_iff hentry hb).1 h
  have hreach := le_furthest (b.start + 2 + rows.flatten.length) entries
  rw [← hrows.stop_eq] at hreach
  omega

theorem readSection_eq
    (hentry : CursorM.Spells bytes entry fun e row => Row e.1 e.2 row) (hb : b.start ≤ b.stop)
    (hstop : b.stop ≤ bytes.size) (name : String) :
    readSection bytes b name (ofCursor entry) = ofExcept (LoadedImage.readTable bytes b entry >>=
      fun t => b.finish name t.2 >>= fun _ => pure t.1) := by
  unfold readSection
  rw [readTable_eq]
  exact finished_eq name _ (fun _ => start_le hentry (Nat.le_trans hb hstop)) hb

theorem ofExcept_mapM {f : α → Except ImageError β} {g : α → Except ReadFault β} :
    ∀ {xs : List α}, (∀ a ∈ xs, g a = ofExcept (f a)) → xs.mapM g = ofExcept (xs.mapM f)
  | [], _ => rfl
  | a :: xs, h => by
    rw [mapM_cons, mapM_cons, ofExcept_bind, h a mem_cons_self,
      ofExcept_mapM fun b hb => h b (mem_cons_of_mem _ hb)]
    refine bind_congr fun y => ?_
    rw [ofExcept_bind]
    rfl

theorem slices_eq (hstarts : ∀ start ∈ starts, start ≤ stop) (hstop : stop ≤ bytes.size) :
    slices bytes stop starts = ofExcept (LoadedImage.slices bytes stop starts) := by
  refine ofExcept_mapM fun e he => ?_
  have hnext := next_le hstarts e he
  by_cases hlt : e.2 < e.1
  · simp only [if_pos hlt]
    rfl
  · simp only [if_neg hlt]
    rw [slice_ok (Nat.le_of_not_lt hlt) (Nat.le_trans hnext hstop)]
    rfl

theorem readDescriptors_eq (hb : b.start ≤ b.stop) (hstop : b.stop ≤ bytes.size) :
    readDescriptors bytes b = ofExcept (LoadedImage.readDescriptors bytes b) := by
  rw [LoadedImage.readDescriptors_eq]
  unfold readDescriptors
  rw [readTable_eq]
  cases ht : LoadedImage.readTable bytes b (LoadedImage.descriptorEntry bytes b) with
  | error e => rfl
  | ok t =>
    have hsize := Nat.le_trans hb hstop
    have hle := start_le (LoadedImage.spells_descriptorEntry hstop) hsize ht
    have hrows := (LoadedImage.readTable_ok_iff (LoadedImage.spells_descriptorEntry hstop) hsize).1 ht
    obtain ⟨-, hstarts, -⟩ := LoadedImage.descriptorRows_iff.1 hrows
    show (slices bytes b.stop t.1 >>= fun _ => _) = ofExcept (LoadedImage.slices bytes b.stop t.1 >>= _)
    rw [slices_eq (fun start hstart => (hstarts start hstart).2.1) hstop, ofExcept_bind]
    refine bind_congr fun payloads => ?_
    rw [ofExcept_bind, finish_eq (by split <;> omega) hb]
    rfl

theorem readStatics_eq (hb : b.start ≤ b.stop) (hstop : b.stop ≤ bytes.size) :
    readStatics bytes b = ofExcept (LoadedImage.readStatics bytes b) := by
  refine finished_eq "statics" Prod.fst (fun t ht => ?_) hb
  obtain ⟨xs, -, -, hxs⟩ :=
    (spells_staticTable b.start t.1 t.2 (Nat.le_trans hb hstop)).1 ht
  omega

theorem readSections_eq {h : ImageHeader} (hstop : (LoadedImage.staticBounds h).stop ≤ bytes.size) :
    readSections bytes h = ofExcept (LoadedImage.readSections bytes h) := by
  have hbounds := bounds_le h
  unfold readSections LoadedImage.readSections
  rw [readMethods_eq, readClasses_eq, readDispatches_eq]
  dsimp only
  rw [methodEntry_eq, readSection_eq (spells_methodEntry (by omega)) (by omega) (by omega),
    readSection_eq (spells_classEntry (by omega)) (by omega) (by omega),
    readSection_eq (spells_dispatchEntry (by omega)) (by omega) (by omega),
    readDescriptors_eq (by omega) (by omega), readStatics_eq (by omega) hstop]
  simp only [ofExcept_bind, bind_assoc]
  rfl

theorem read_eq (bytes : Array UInt8) : read bytes = ofExcept (LoadedImage.read bytes) := by
  rw [LoadedImage.read_eq, ofExcept_bind]
  refine bind_congr fun t => ?_
  dsimp only
  split
  · rename_i hlt
    rw [subtract_ok (Nat.le_of_lt hlt)]
    rfl
  · split
    · rename_i hlt
      rw [subtract_ok (Nat.le_of_lt hlt)]
      rfl
    · exact readSections_eq (by omega)

end Checked

/-- **The image reader is safe on any bytes.** It never takes a slice that leaves the bytes and never
subtracts below zero. It gives an image exactly if the sections fill the bytes and every part of the image
stands in its section. -/
theorem LoadedImage.read_in_range (bytes : Array UInt8) :
    Checked.read bytes = Checked.ofExcept (read bytes) ∧
      ∀ p, read bytes = .ok p ↔ p.StandsIn bytes :=
  ⟨Checked.read_eq bytes, fun _ => read_ok_iff⟩

end DeviceCode
