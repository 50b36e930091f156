import DeviceCode.Proofs.Image.Reader

/-!
# Reading what was written

`Image.loaded i` is what a reader should find in the written form of `i`: the records as they are,
and every method with the offset of its code. `Image.Fits i`: the counts of all tables fit into
words and all positions into double words. Main statement: `LoadedImage.read_encode`, an image that
fits is read back from its written form, since all parts of `Image.loaded i` stand there.
-/

namespace DeviceCode

open Holds

open Image

open List

namespace LoadedImage

variable {α γ : Type} {bytes : Array UInt8} {b : Bounds} {start : Nat}

/-! ## Records -/

theorem hostFlag_iff (host : Bool) :
    ((if host then StaticRecord.hostFlag else 0) &&& StaticRecord.hostFlag != 0) = host := by
  cases host <;> rfl

theorem length_encodeAll (slots : List SlotRecord) :
    (SlotRecord.encodeAll slots).length = 2 + 3 * slots.length := by
  induction slots with
  | nil => rfl
  | cons s slots ih =>
    simp only [SlotRecord.encodeAll, word, flatMap_cons, length_append,
      Word.length_bytes16, SlotRecord.encode, length_cons] at ih ⊢
    omega

theorem length_metadata (m : MethodRecord) : m.metadata.length = m.metadataSize := by
  simp only [MethodRecord.metadata, MethodRecord.metadataSize, position, length_append,
    length_cons, Word.length_bytes16, Word.length_bytes32, length_encodeAll]
  omega

theorem length_encode (m : MethodRecord) : m.encode.length = m.size := by
  simp [MethodRecord.encode, MethodRecord.size, length_metadata]

/-- The method that a record becomes at a place. -/
def loadMethod (m : MethodRecord) (codeOffset : Nat) : LoadedMethod :=
  { toMethodRecord := m, codeOffset := codeOffset.toUInt32 }

theorem methodAt_encode {m : MethodRecord} (hargs : m.args.length < 65536)
    (hlocals : m.locals.length < 65536) (h : Holds bytes start m.encode) (hb : b.start ≤ start)
    (he : start + m.size ≤ b.stop) (hstop : b.stop < 4294967296) :
    MethodAt bytes b start (loadMethod m (start + m.metadataSize)) (start + m.size) := by
  obtain ⟨hmeta, hcode⟩ := append.1 h
  rw [length_metadata] at hcode
  have hsize : m.size = m.metadataSize + m.code.size := rfl
  have hoff : (start + m.metadataSize).toUInt32.toNat = start + m.metadataSize :=
    toNat_toUInt32 (by omega)
  refine ⟨hmeta, hargs, hlocals, ?_, ?_, ?_, ?_, he⟩
  all_goals dsimp only [loadMethod]
  · omega
  · rwa [hoff]
  · omega
  · omega

/-! ## Tables -/

theorem furthest_placed (size : α → Nat) : ∀ (items : List α) (start : Nat),
    (items.zip (placements start (items.map size))).foldl
      (fun furthest e => max furthest (e.2 + size e.1)) start = start + total (items.map size)
  | [], start => rfl
  | a :: items, start => by
    rw [map_cons, placements, zip_cons_cons, foldl_cons,
      Nat.max_eq_right (Nat.le_add_right _ _), furthest_placed, total, Nat.add_assoc]

/-- Items that lie end to end lie between the start of the first and the end of the last. -/
theorem placed_le (size : α → Nat) (items : List α) (start : Nat) :
    ∀ e ∈ items.zip (placements start (items.map size)),
      e.1 ∈ items ∧ start ≤ e.2 ∧ e.2 + size e.1 ≤ start + total (items.map size) := by
  intro e he
  have hwithin := placed_within (placed_zip size items start) e he
  have hsizes : (items.zip (placements start (items.map size))).map (fun e => size e.1) =
      items.map size := by
    rw [show (fun e : α × Nat => size e.1) = size ∘ Prod.fst from rfl, ← map_map,
      map_fst_zip (by simp)]
  rw [hsizes] at hwithin
  exact ⟨(of_mem_zip he).1, hwithin⟩

theorem length_zip_placements (size : α → Nat) (items : List α) (start : Nat) :
    (items.zip (placements start (items.map size))).length = items.length := by
  simp

/-- A table whose entries have one width and point to items that lie end to end behind them. -/
theorem TableRead.placed {Row : α → Nat → List UInt8 → Prop} {width : Nat} (items : List γ)
    (encode : γ → List UInt8) (head : γ → Nat → List UInt8) (value : γ → Nat → α)
    (hn : items.length < 65536) (hwidth : ∀ g start, (head g start).length = width)
    (hstop : b.stop = b.start + 2 + width * items.length + (items.flatMap encode).length)
    (h : Holds bytes b.start (Image.word items.length ++
      (items.zip (placements (b.start + 2 + width * items.length)
      (items.map fun g => (encode g).length))).flatMap (fun e => head e.1 e.2) ++
      items.flatMap encode))
    (hrow : ∀ g ∈ items, ∀ start, Holds bytes start (encode g) → b.start ≤ start →
      start + (encode g).length ≤ b.stop →
      Row (value g start) (start + (encode g).length) (head g start)) :
    TableRead bytes b Row ((items.zip (placements (b.start + 2 + width * items.length)
      (items.map fun g => (encode g).length))).map (fun e => value e.1 e.2)) := by
  have hlen := length_zip_placements (fun g => (encode g).length) items
    (b.start + 2 + width * items.length)
  have hheads := length_flatMap_const (items.zip (placements (b.start + 2 + width * items.length)
    (items.map fun g => (encode g).length))) fun e _ => hwidth e.1 e.2
  rw [hlen] at hheads
  obtain ⟨htable, hitems⟩ := append.1 h
  rw [length_append, length_word, hheads, ← Nat.add_assoc] at hitems
  have hplaced := hitems.placed
  have hle := placed_le (fun g => (encode g).length) items (b.start + 2 + width * items.length)
  rw [length_flatMap_total] at hstop
  have hreach := furthest_placed (fun g => (encode g).length) items
    (b.start + 2 + width * items.length)
  generalize items.zip (placements (b.start + 2 + width * items.length)
    (items.map fun g => (encode g).length)) = placed at *
  refine ⟨placed.map fun e => (value e.1 e.2, e.2 + (encode e.1).length),
    placed.map fun e => head e.1 e.2, ?_, ?_, ?_, ?_, ?_⟩
  · simp
  · rwa [length_map, hlen]
  · refine forall₂_map_left_iff.2 (forall₂_map_right_iff.2
      (forall₂_same.2 fun e he => ?_))
    obtain ⟨hmem, h₁, h₂⟩ := hle e he
    exact hrow e.1 hmem e.2 (hplaced e he) (by omega) (by omega)
  · rwa [length_map, hlen]
  · rw [← flatMap_def, hheads, furthest, foldl_map, hreach, hstop]

/-! ## Sections -/

theorem Bounds.has_toUInt32 (h₁ : b.start ≤ start) (h₂ : start ≤ b.stop)
    (hlt : b.stop < 4294967296) : b.Has start.toUInt32 ∧ start.toUInt32.toNat = start := by
  have hword : start.toUInt32.toNat = start := toNat_toUInt32 (by omega)
  rw [Bounds.Has, hword]
  exact ⟨⟨h₁, h₂⟩, rfl⟩

theorem length_methodSection (methods : List MethodRecord) : (Image.methodSection methods).length =
    2 + 8 * methods.length + total (methods.map (·.size)) := by
  unfold methodSection methodStarts
  rw [length_append, length_append,
    length_flatMap_total MethodRecord.encode, length_flatMap_const (n := 8) _ (fun _ _ => rfl)]
  simp [length_encode]

theorem length_fields (fields : List FieldRecord) :
    (fields.flatMap FieldRecord.encode).length = 5 * fields.length :=
  length_flatMap_const fields fun _ _ => rfl

theorem tableRead_methods {methods : List MethodRecord} (hn : methods.length < 65536)
    (hfits : ∀ m ∈ methods, m.args.length < 65536 ∧ m.locals.length < 65536)
    (hstart : b.start = ImageHeader.size)
    (hstop : b.stop = b.start + (Image.methodSection methods).length)
    (hlt : b.stop < 4294967296) (h : Holds bytes b.start (Image.methodSection methods)) :
    TableRead bytes b (MethodRow bytes b) ((methods.zip (Image.methodStarts methods)).map
      fun e => loadMethod e.1 (e.2 + e.1.metadataSize)) := by
  have hsizes : (methods.map fun m => m.encode.length) = methods.map (·.size) := by
    simp [length_encode]
  rw [length_methodSection, ← hsizes, ← length_flatMap_total] at hstop
  unfold methodSection methodStarts at h
  unfold methodStarts
  rw [← hsizes, ← hstart] at h ⊢
  refine .placed methods MethodRecord.encode
    (fun m start => position start ++ position (start + m.metadataSize))
    (fun m start => loadMethod m (start + m.metadataSize)) hn (fun _ _ => rfl) (by omega) h ?_
  intro m hm start hheld h₁ h₂
  rw [length_encode] at h₂ ⊢
  obtain ⟨hhas, hword⟩ := Bounds.has_toUInt32 h₁ (Nat.le_trans (Nat.le_add_right _ _) h₂) hlt
  exact ⟨start.toUInt32, hhas,
    hword.symm ▸ methodAt_encode (hfits m hm).1 (hfits m hm).2 hheld h₁ h₂ hlt, rfl⟩

theorem tableRead_classes {classes : List ClassRecord} (hn : classes.length < 65536)
    (hfits : ∀ c ∈ classes, c.fields.length < 65536)
    (hstop : b.stop = b.start + (Image.classSection b.start classes).length)
    (hlt : b.stop < 4294967296) (h : Holds bytes b.start (Image.classSection b.start classes)) :
    TableRead bytes b (ClassRow bytes b) classes := by
  have hsizes : (classes.map fun c => (c.fields.flatMap FieldRecord.encode).length) =
      classes.map (5 * ·.fields.length) := by simp only [length_fields]
  unfold classSection at h hstop
  rw [← hsizes] at h hstop
  rw [length_append, length_append, length_word,
    length_flatMap_const (n := 8) _ (fun _ _ => rfl), length_zip_placements] at hstop
  have hread : TableRead bytes b (ClassRow bytes b) _ := .placed classes
    (fun c => c.fields.flatMap FieldRecord.encode)
    (fun c start => Word.bytes16 c.size ++ word c.fields.length ++ position start)
    (fun c _ => c) hn (fun _ _ => rfl) (by omega) h ?_
  · rwa [map_fst_zip (by simp)] at hread
  · intro c hc start hheld h₁ h₂
    obtain ⟨hhas, hword⟩ := Bounds.has_toUInt32 h₁ (Nat.le_trans (Nat.le_add_right _ _) h₂) hlt
    exact ⟨start.toUInt32, hhas, hfits c hc, hword.symm ▸ hheld, by rw [hword], by simp [position]⟩

theorem tableRead_dispatch {dispatch : List DispatchRecord}
    (hn : dispatch.length < 65536) (hfits : ∀ d ∈ dispatch, d.implementors.length < 65536)
    (hstop : b.stop = b.start +
      (Image.tableSection b.start (dispatch.map DispatchRecord.encode)).length)
    (hlt : b.stop < 4294967296)
    (h : Holds bytes b.start (Image.tableSection b.start (dispatch.map DispatchRecord.encode))) :
    TableRead bytes b (DispatchRow bytes b) dispatch := by
  have hheads : (placements (b.start + 2 + 4 * dispatch.length)
        (dispatch.map fun d => d.encode.length)).flatMap position =
      (dispatch.zip (placements (b.start + 2 + 4 * dispatch.length)
        (dispatch.map fun d => d.encode.length))).flatMap fun e => position e.2 := by
    have hsnd := flatMap_map Prod.snd position
      (dispatch.zip (placements (b.start + 2 + 4 * dispatch.length)
        (dispatch.map fun d => d.encode.length)))
    rw [map_snd_zip (by simp)] at hsnd
    exact hsnd
  unfold tableSection at h hstop
  rw [length_map, map_map, ← flatMap_def] at h hstop
  rw [length_append, length_append, length_word,
    length_flatMap_const (n := 4) _ (fun _ _ => rfl), length_placements, length_map] at hstop
  have hread : TableRead bytes b (DispatchRow bytes b) _ := .placed dispatch DispatchRecord.encode
    (fun _ start => position start) (fun d _ => d) hn (fun _ _ => rfl) (by omega) (hheads ▸ h) ?_
  · rwa [map_fst_zip (by simp)] at hread
  · intro d hd start hheld h₁ h₂
    obtain ⟨hhas, hword⟩ := Bounds.has_toUInt32 h₁ (Nat.le_trans (Nat.le_add_right _ _) h₂) hlt
    exact ⟨start.toUInt32, hhas, hfits d hd, hword.symm ▸ hheld, by rw [hword], rfl⟩

theorem payloadsAt_encode {payloads : List (List UInt8)} (hn : payloads.length < 65536)
    (hstop : b.stop = b.start + (Image.tableSection b.start payloads).length)
    (hlt : b.stop < 4294967296) (h : Holds bytes b.start (Image.tableSection b.start payloads)) :
    PayloadsAt bytes b (b.start + 2 + 4 * payloads.length) payloads := by
  unfold tableSection at h hstop
  have hle := placed_le length payloads (b.start + 2 + 4 * payloads.length)
  have hheads : ((placements (b.start + 2 + 4 * payloads.length)
      (payloads.map length)).flatMap position).length = 4 * payloads.length := by
    rw [length_flatMap_const (n := 4) _ (fun _ _ => rfl), length_placements, length_map]
  obtain ⟨htable, hitems⟩ := append.1 h
  rw [length_append, length_append, length_word] at hstop
  rw [length_append, hheads, ← Nat.add_assoc] at hitems
  refine ⟨hn, fun first hfirst => ?_, htable, hitems, by omega, by omega, ?_⟩
  · -- every start is that of some item
    obtain ⟨e, he, rfl⟩ : ∃ e ∈ payloads.zip (placements
        (b.start + 2 + 4 * payloads.length) (payloads.map length)), e.2 = first := by
      rw [← mem_map, map_snd_zip (by simp)]
      exact hfirst
    obtain ⟨-, h₁, h₂⟩ := hle e he
    rw [← length_flatten_total] at h₂
    omega
  · rintro rfl
    exact hstop.symm

theorem staticsRead_encode {statics : StaticsRecord} (hn : statics.entries.length < 65536)
    (hstop : b.stop = b.start + statics.encode.length) (h : Holds bytes b.start statics.encode) :
    StaticsRead bytes b statics := by
  unfold StaticsRecord.encode at h hstop
  rw [flatMap_def] at h hstop
  refine ⟨hn, statics.entries.map StaticRecord.encode, ?_, by simpa using h, ?_⟩
  · refine forall₂_map_right_iff.2 (forall₂_same.2 fun s _ => ?_)
    exact ⟨_, (hostFlag_iff s.host).symm, by simp [StaticRecord.encode]⟩
  · simp only [length_append, Word.length_bytes32, length_word] at hstop
    omega

/-! ## The image -/

theorem length_header (h : ImageHeader) : h.encode.length = ImageHeader.size := rfl

end LoadedImage

namespace Image

/-- What a reader finds in the written form of the image. -/
def loaded (i : Image) : LoadedImage where
  header := i.header
  methods := ((i.methods.zip (methodStarts i.methods)).map fun e =>
    LoadedImage.loadMethod e.1 (e.2 + e.1.metadataSize)).toArray
  classes := i.classes
  descriptors := i.descriptors
  dispatch := i.dispatch
  statics := i.statics

/-- All counts fit into words, and all positions into double words. -/
structure Fits (i : Image) : Prop where
  methods : i.methods.length < 65536
  slots : ∀ m ∈ i.methods, m.args.length < 65536 ∧ m.locals.length < 65536
  classes : i.classes.length < 65536
  fields : ∀ c ∈ i.classes, c.fields.length < 65536
  descriptors : i.descriptors.length < 65536
  dispatch : i.dispatch.length < 65536
  implementors : ∀ d ∈ i.dispatch, d.implementors.length < 65536
  statics : i.statics.entries.length < 65536
  size : ImageHeader.size + i.sections.flatten.length < 4294967296

theorem length_encode (i : Image) :
    i.encode.length = ImageHeader.size + i.sections.flatten.length := by
  rw [encode, length_append, LoadedImage.length_header]

theorem Sections.length_flatten (s : Sections) : s.flatten.length = s.methods.length +
    s.classes.length + s.descriptors.length + s.dispatch.length + s.statics.length := by
  simp only [flatten, length_append]

end Image

namespace LoadedImage

/-- **An image that fits is read back from its written form.** -/
theorem read_encode {i : Image} (h : i.Fits) : read i.encode.toArray = .ok i.loaded := by
  have hsize := h.size
  rw [Image.Sections.length_flatten] at hsize
  -- the sections stand one after the other behind the header
  have hall : Holds i.encode.toArray 0 (i.header.encode ++ (i.sections.methods ++
      i.sections.classes ++ i.sections.descriptors ++ i.sections.dispatch ++
      i.sections.statics)) := by
    have hwhole := of_append [] i.encode []
    rwa [append_nil] at hwhole
  have htotal : i.encode.toArray.size = ImageHeader.size + (i.sections.methods.length +
      i.sections.classes.length + i.sections.descriptors.length + i.sections.dispatch.length +
      i.sections.statics.length) := by
    rw [size_toArray, Image.length_encode, Image.Sections.length_flatten]
  rw [read_ok_iff]
  generalize i.encode.toArray = bytes at hall htotal ⊢
  obtain ⟨hheader, hsections⟩ := append.1 hall
  obtain ⟨hsections, hstatics⟩ := append.1 hsections
  obtain ⟨hsections, hdispatch⟩ := append.1 hsections
  obtain ⟨hsections, hdescriptors⟩ := append.1 hsections
  obtain ⟨hmethods, hclasses⟩ := append.1 hsections
  rw [length_header, Nat.zero_add] at hmethods hclasses hdescriptors hdispatch hstatics
  simp only [length_append, ← Nat.add_assoc] at hdescriptors hdispatch hstatics
  have lengths : i.header.sections.methods.toNat = i.sections.methods.length ∧
      i.header.sections.classes.toNat = i.sections.classes.length ∧
      i.header.sections.descriptors.toNat = i.sections.descriptors.length ∧
      i.header.sections.dispatch.toNat = i.sections.dispatch.length ∧
      i.header.sections.statics.toNat = i.sections.statics.length :=
    ⟨toNat_toUInt32 (by omega), toNat_toUInt32 (by omega), toNat_toUInt32 (by omega),
      toNat_toUInt32 (by omega), toNat_toUInt32 (by omega)⟩
  obtain ⟨lm, lc, ld, lv, ls⟩ := lengths
  -- each section stands where the lengths in the header say
  have em : (methodBounds i.header).stop = ImageHeader.size + i.sections.methods.length :=
    congrArg _ lm
  have ec : (classBounds i.header).stop = (methodBounds i.header).stop + i.sections.classes.length :=
    congrArg _ lc
  have ed : (descriptorBounds i.header).stop =
      (classBounds i.header).stop + i.sections.descriptors.length := congrArg _ ld
  have ev : (dispatchBounds i.header).stop =
      (descriptorBounds i.header).stop + i.sections.dispatch.length := congrArg _ lv
  have es : (staticBounds i.header).stop =
      (dispatchBounds i.header).stop + i.sections.statics.length := congrArg _ ls
  have hstop : (staticBounds i.header).stop = bytes.size := by omega
  rw [← em] at hclasses hdescriptors hdispatch hstatics
  rw [← ec] at hdescriptors hdispatch hstatics
  rw [← ed] at hdispatch hstatics
  rw [← ev] at hstatics
  have sc : i.sections.classes = classSection (methodBounds i.header).stop i.classes := by
    rw [em]
    rfl
  have sd : i.sections.descriptors = tableSection (classBounds i.header).stop i.descriptors := by
    rw [ec, em]
    rfl
  have sv : i.sections.dispatch = tableSection (descriptorBounds i.header).stop
      (i.dispatch.map DispatchRecord.encode) := by
    rw [ed, ec, em]
    rfl
  rw [sc] at ec hclasses
  rw [sd] at ed hdescriptors
  rw [sv] at ev hdispatch
  exact {
    header := hheader
    size := hstop
    methods := tableRead_methods (b := methodBounds i.header) h.methods h.slots rfl em (by omega) hmethods
    classes := tableRead_classes (b := classBounds i.header) h.classes h.fields ec (by omega) hclasses
    descriptors := ⟨_, payloadsAt_encode (b := descriptorBounds i.header) h.descriptors ed (by omega)
      hdescriptors⟩
    dispatch := tableRead_dispatch (b := dispatchBounds i.header) h.dispatch h.implementors ev (by omega)
      hdispatch
    statics := staticsRead_encode (b := staticBounds i.header) h.statics es hstatics }

end LoadedImage

end DeviceCode
