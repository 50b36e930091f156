import DeviceCode.Build
import DeviceCode.Proofs.Image.RoundTrip
import DeviceCode.Proofs.TypeTables

/-!
# The image of a linked build

`Image.ReadBack`: a loaded image has the entry, the methods, the classes, the dispatch table, the
static fields and the descriptors of a linked build, entry by entry. Main statement:
`image_of_build_reads_back`, whatever is linked and written is read back so.

The numbers of the tables are written as words: `fits_of_ofLinked` and the lemmas on the single
records say that none of them is cut off.
-/

namespace DeviceCode

open LoadedImage

open List

variable {c : BuildContext} {r : Registry} {linked : Linked} {entry n : Nat} {what : String}
  {layout : LayoutTable} {image : Image} {b : Build}

theorem BuildContext.compileAndLink_ok {start : MethodRef} {r' : Registry} {index : Nat}
    (h : c.compileAndLink start r = .ok (index, linked) r') :
    ∃ r₀, Registry.compileEntry c start r = .ok index r₀ ∧
      Registry.link c r₀ = .ok linked r' := by
  obtain ⟨i, r₀, hentry, h⟩ := state_bind_ok.1 h
  obtain ⟨l, r₁, hlink, h⟩ := state_bind_ok.1 h
  obtain ⟨heq, rfl⟩ := state_pure_ok.1 h
  obtain ⟨rfl, rfl⟩ := Prod.mk.inj heq
  exact ⟨r₀, hentry, hlink⟩

theorem Build.ofLinked_parts (h : Build.ofLinked c r linked entry = .ok b) :
    Image.ofLinked c r linked entry = .ok b.image ∧ b.bytes = b.image.encode ∧
      b.listing = Listing.ofMethods r.methods.toList (b.image.codeOffsets.map Nat.toUInt32) := by
  obtain ⟨image, himage, h⟩ := except_bind_ok.1 h
  split at h
  all_goals
    obtain ⟨cUnit, -, h⟩ := except_bind_ok.1 h
    rw [except_pure_ok] at h
    subst h
    exact ⟨himage, rfl, rfl⟩

/-- A build that passes a check, which evaluation can find. -/
theorem Build.exists_of_any {start : MethodRef} {check : Nat × Linked → Build → Bool}
    (h : (((c.compileAndLink start).run' {}).any fun built =>
      (Build.ofLinked c (stateAfter (c.compileAndLink start) {}) built.2 built.1).toOption.any
        (check built)) = true) :
    ∃ entry linked b,
      c.compileAndLink start {} = .ok (entry, linked) (stateAfter (c.compileAndLink start) {}) ∧
      Build.ofLinked c (stateAfter (c.compileAndLink start) {}) linked entry = .ok b ∧
      check (entry, linked) b = true := by
  obtain ⟨⟨entry, linked⟩, hrun, h⟩ := ok_of_any h
  obtain ⟨b, hb, h⟩ := except_any_toOption.1 h
  exact ⟨entry, linked, b, hrun, hb, h⟩

namespace Image

/-! ## Records and tables -/

/-- The number names the class with that key, and -1 names none. -/
def RefersTo (layout : LayoutTable) : Option String → Int16 → Prop
  | none, ref => ref = -1
  | some key, ref => ∃ id : Nat, layout.classId? key = some id ∧ ref.toInt = id

/-- The record of an argument or a local variable. -/
structure IsSlot (layout : LayoutTable) (s : Slot) (record : SlotRecord) : Prop where
  tag : record.tag = s.tag.id
  classRef : RefersTo layout s.valueClass record.classRef

/-- The record of a method. -/
structure IsMethod (layout : LayoutTable) (m : CompiledMethod) (record : MethodRecord) : Prop where
  retTag : record.retTag = Storage.resultTag m.ret
  retClass : RefersTo layout (m.ret.bind (·.valueClass)) record.retClass
  args : List.Forall₂ (IsSlot layout) m.args.slots.toList record.args
  locals : List.Forall₂ (IsSlot layout) m.locals.slots.toList record.locals
  maxStack : record.maxStack = m.maxStack
  code : record.code.toList = m.code

/-- The record of a field of a class. -/
structure IsField (layout : LayoutTable) (f : FieldSlot) (record : FieldRecord) : Prop where
  tag : record.tag = f.tag.id
  offset : record.offset = f.offset
  classRef : RefersTo layout f.valueClass record.classRef

/-- The record of a class. -/
structure IsClass (layout : LayoutTable) (c : ClassLayout) (record : ClassRecord) : Prop where
  size : record.size = c.size
  fields : List.Forall₂ (IsField layout) c.fields.toList record.fields

/-- A class of a virtual slot and the method that it runs. -/
structure IsImplementor (layout : LayoutTable) (i : String × Nat) (record : DispatchPair) :
    Prop where
  classId : layout.classId? i.1 = some record.classId.toNat
  method : record.method.toNat = i.2

/-- The record of a virtual slot. -/
structure IsDispatch (layout : LayoutTable) (s : VirtualSlot) (record : DispatchRecord) : Prop where
  params : record.params.toNat = s.params
  implementors : List.Forall₂ (IsImplementor layout) s.implementors record.implementors

/-- The record of a static field. -/
structure IsStatic (f : StaticField) (record : StaticRecord) : Prop where
  tag : record.tag = f.tag.id
  offset : record.offset = f.offset
  descriptor : f.descriptor = some record.descriptor
  host : record.host = f.host

/-- The written form of a descriptor. -/
def IsDescriptor (e : DescriptorEntry) (bytes : List UInt8) : Prop :=
  ∃ d, e.descriptor = some d ∧ bytes = d.encode

/-- A loaded image has the entry, the methods and the tables of a linked build. -/
structure ReadBack (c : BuildContext) (r : Registry) (linked : Linked) (entry : Nat)
    (image : Image) (p : LoadedImage) : Prop where
  scanInterval : p.header.scanInterval = c.options.scanInterval
  entryOffset : image.codeOffsets[entry]? = some p.header.entryOffset.toNat
  sections : ImageHeader.size + p.header.sections.methods.toNat +
    p.header.sections.classes.toNat + p.header.sections.descriptors.toNat +
    p.header.sections.dispatch.toNat + p.header.sections.statics.toNat = image.encode.length
  entry : p.methodAt? p.header.entryOffset = some entry
  codeOffsets : image.codeOffsets = p.methods.toList.map (·.codeOffset.toNat)
  methods : List.Forall₂ (fun m q => IsMethod linked.layout m q.toMethodRecord)
    r.methods.toList p.methods.toList
  classes : List.Forall₂ (IsClass linked.layout) linked.layout.classes.toList p.classes
  dispatch : List.Forall₂ (IsDispatch linked.layout) r.slots.toList p.dispatch
  staticSize : p.statics.size.toNat = linked.layout.staticSize
  statics : List.Forall₂ IsStatic linked.layout.statics.toList p.statics.entries
  descriptors : List.Forall₂ IsDescriptor linked.descriptors.entries.toList p.descriptors

/-! ## Collecting the records -/

theorem checkWord_ok {u : Unit} (h : checkWord what n = .ok u) : n < 65536 := by
  unfold checkWord at h
  split at h
  · assumption
  · cases h

theorem checkDouble_ok {u : Unit} (h : checkDouble what n = .ok u) : n < 4294967296 := by
  unfold checkDouble at h
  split at h
  · assumption
  · cases h

theorem classId_ok {key : String} {id : Nat} (h : classId layout key = .ok id) :
    layout.classId? key = some id := by
  unfold classId at h
  split at h
  · cases h; assumption
  · cases h

theorem classRef_ok {key : Option String} {ref : Int16} (h : classRef layout key = .ok ref) :
    RefersTo layout key ref := by
  cases key with
  | none =>
    cases h
    rfl
  | some key =>
    obtain ⟨id, hid, h⟩ := except_bind_ok.1 h
    split at h
    · rw [except_pure_ok] at h
      subst h
      refine ⟨id, classId_ok hid, ?_⟩
      rw [Int16.toInt_ofNat_of_lt (by omega)]
    · simp at h

theorem slotRecords_ok {area : SlotList} {records : List SlotRecord}
    (h : slotRecords layout what area = .ok records) :
    records.length < 65536 ∧ List.Forall₂ (IsSlot layout) area.slots.toList records := by
  obtain ⟨_, hn, h⟩ := except_bind_ok.1 h
  have hall := except_mapM_ok.1 h
  refine ⟨?_, hall.imp fun s record hs => ?_⟩
  · rw [← hall.length_eq]
    exact checkWord_ok hn
  · obtain ⟨ref, href, hs⟩ := except_bind_ok.1 hs
    rw [except_pure_ok] at hs
    subst hs
    exact ⟨rfl, classRef_ok href⟩

theorem methodRecord_ok {m : CompiledMethod} {record : MethodRecord}
    (h : methodRecord layout m = .ok record) :
    IsMethod layout m record ∧ record.args.length < 65536 ∧ record.locals.length < 65536 := by
  obtain ⟨ref, href, h⟩ := except_bind_ok.1 h
  obtain ⟨args, hargs, h⟩ := except_bind_ok.1 h
  obtain ⟨locals, hlocals, h⟩ := except_bind_ok.1 h
  obtain ⟨_, -, h⟩ := except_bind_ok.1 h
  rw [except_pure_ok] at h
  subst h
  obtain ⟨hna, ha⟩ := slotRecords_ok hargs
  obtain ⟨hnl, hl⟩ := slotRecords_ok hlocals
  exact ⟨⟨rfl, classRef_ok href, ha, hl, rfl, rfl⟩, hna, hnl⟩

theorem classRecord_ok {c : ClassLayout} {record : ClassRecord}
    (h : classRecord layout c = .ok record) : IsClass layout c record := by
  obtain ⟨fields, hfields, h⟩ := except_bind_ok.1 h
  rw [except_pure_ok] at h
  subst h
  refine ⟨rfl, (except_mapM_ok.1 hfields).imp fun f record hf => ?_⟩
  obtain ⟨ref, href, hf⟩ := except_bind_ok.1 hf
  rw [except_pure_ok] at hf
  subst hf
  exact ⟨rfl, rfl, classRef_ok href⟩

theorem classRecords_ok {records : List ClassRecord} (h : classRecords layout = .ok records) :
    records.length < 65536 ∧ (∀ c ∈ records, c.fields.length < 65536) ∧
      List.Forall₂ (IsClass layout) layout.classes.toList records := by
  obtain ⟨_, hn, h⟩ := except_bind_ok.1 h
  obtain ⟨_, hfields, h⟩ := except_bind_ok.1 h
  have hall := except_mapM_ok.1 h
  have hclasses : List.Forall₂ (IsClass layout) layout.classes.toList records :=
    hall.imp fun c record hc => classRecord_ok hc
  refine ⟨?_, fun record hrecord => ?_, hclasses⟩
  · rw [← hall.length_eq]
    exact checkWord_ok hn
  · -- a record has as many fields as its class
    obtain ⟨c, hc, hrec⟩ := forall₂_mem_right hclasses record hrecord
    rw [← hrec.fields.length_eq]
    exact checkWord_ok (except_forM_ok hfields c hc)

theorem dispatchPair_ok {i : String × Nat} {record : DispatchPair}
    (h : dispatchPair layout i = .ok record) : IsImplementor layout i record := by
  obtain ⟨id, hid, h⟩ := except_bind_ok.1 h
  obtain ⟨_, hword, h⟩ := except_bind_ok.1 h
  obtain ⟨_, hmethod, h⟩ := except_bind_ok.1 h
  rw [except_pure_ok] at h
  subst h
  refine ⟨?_, toNat_toUInt16 (checkWord_ok hmethod)⟩
  rw [toNat_toUInt16 (checkWord_ok hword)]
  exact classId_ok hid

theorem dispatchRecord_ok {s : VirtualSlot} {record : DispatchRecord}
    (h : dispatchRecord layout s = .ok record) :
    IsDispatch layout s record ∧ record.implementors.length < 65536 := by
  obtain ⟨_, hn, h⟩ := except_bind_ok.1 h
  obtain ⟨_, hparams, h⟩ := except_bind_ok.1 h
  obtain ⟨implementors, hall, h⟩ := except_bind_ok.1 h
  rw [except_pure_ok] at h
  subst h
  have hall := except_mapM_ok.1 hall
  refine ⟨⟨toNat_toUInt16 (checkWord_ok hparams), hall.imp fun _ _ hi => dispatchPair_ok hi⟩, ?_⟩
  rw [← hall.length_eq]
  exact checkWord_ok hn

theorem staticsRecord_ok {record : StaticsRecord} (hd : ∀ f ∈ layout.statics, f.descriptor.isSome)
    (h : staticsRecord layout = .ok record) :
    record.entries.length < 65536 ∧ record.size.toNat = layout.staticSize ∧
      List.Forall₂ IsStatic layout.statics.toList record.entries := by
  obtain ⟨_, hsize, h⟩ := except_bind_ok.1 h
  obtain ⟨_, hn, h⟩ := except_bind_ok.1 h
  rw [except_pure_ok] at h
  subst h
  refine ⟨by simpa using checkWord_ok hn, toNat_toUInt32 (checkDouble_ok hsize), ?_⟩
  rw [forall₂_map_right_iff]
  refine forall₂_same.2 fun f hf => ⟨rfl, rfl, ?_, rfl⟩
  obtain ⟨id, hid⟩ := Option.isSome_iff_exists.1 (hd f (by simpa using hf))
  simp [staticRecord, hid]

theorem ofLinked_ok (h : ofLinked c r linked entry = .ok image) :
    image.scanInterval = c.options.scanInterval ∧ image.entry = entry ∧
      entry < r.methods.size ∧ methodRecords linked.layout r.methods.toList = .ok image.methods ∧
      classRecords linked.layout = .ok image.classes ∧
      linked.descriptors.size < 65536 ∧
      image.descriptors = linked.descriptors.toList.map Descriptor.encode ∧
      dispatchRecords linked.layout r.slots.toList = .ok image.dispatch ∧
      staticsRecord linked.layout = .ok image.statics ∧
      ImageHeader.size + image.sections.flatten.length < 4294967296 := by
  obtain ⟨methods, hmethods, h⟩ := except_bind_ok.1 h
  obtain ⟨classes, hclasses, h⟩ := except_bind_ok.1 h
  obtain ⟨_, hdescriptors, h⟩ := except_bind_ok.1 h
  obtain ⟨dispatch, hdispatch, h⟩ := except_bind_ok.1 h
  obtain ⟨statics, hstatics, h⟩ := except_bind_ok.1 h
  cases hentry : r.methods[entry]? with
  | none => simp [hentry] at h
  | some m =>
    simp only [hentry] at h
    obtain ⟨_, hsize, h⟩ := except_bind_ok.1 h
    rw [except_pure_ok] at h
    subst h
    exact ⟨rfl, rfl, (Array.getElem?_eq_some_iff.1 hentry).1, hmethods, hclasses,
      checkWord_ok hdescriptors, rfl, hdispatch, hstatics, checkDouble_ok hsize⟩

theorem methodRecords_ok {methods : List CompiledMethod} {records : List MethodRecord}
    (h : methodRecords layout methods = .ok records) :
    records.length < 65536 ∧
      (∀ m ∈ records, m.args.length < 65536 ∧ m.locals.length < 65536) ∧
      List.Forall₂ (IsMethod layout) methods records := by
  obtain ⟨_, hn, h⟩ := except_bind_ok.1 h
  have hall := except_mapM_ok.1 h
  refine ⟨hall.length_eq ▸ checkWord_ok hn, fun record hrecord => ?_,
    hall.imp fun _ _ hm => (methodRecord_ok hm).1⟩
  obtain ⟨m, -, hm⟩ := forall₂_mem_right hall record hrecord
  exact (methodRecord_ok hm).2

theorem dispatchRecords_ok {slots : List VirtualSlot} {records : List DispatchRecord}
    (h : dispatchRecords layout slots = .ok records) :
    records.length < 65536 ∧ (∀ d ∈ records, d.implementors.length < 65536) ∧
      List.Forall₂ (IsDispatch layout) slots records := by
  obtain ⟨_, hn, h⟩ := except_bind_ok.1 h
  have hall := except_mapM_ok.1 h
  refine ⟨hall.length_eq ▸ checkWord_ok hn, fun record hrecord => ?_,
    hall.imp fun _ _ hs => (dispatchRecord_ok hs).1⟩
  obtain ⟨s, -, hs⟩ := forall₂_mem_right hall record hrecord
  exact (dispatchRecord_ok hs).2

theorem descriptors_ok : ∀ {entries : List DescriptorEntry}, (∀ e ∈ entries, e.descriptor.isSome) →
    List.Forall₂ IsDescriptor entries ((entries.filterMap (·.descriptor)).map Descriptor.encode)
  | [], _ => .nil
  | e :: entries, h => by
    obtain ⟨d, hd⟩ := Option.isSome_iff_exists.1 (h e mem_cons_self)
    rw [filterMap_cons_some hd]
    exact .cons ⟨d, hd, rfl⟩ (descriptors_ok fun e he => h e (mem_cons_of_mem _ he))

theorem fits_of_ofLinked (h : ofLinked c r linked entry = .ok image) : image.Fits := by
  obtain ⟨-, -, -, hmethods, hclasses, hn, hdescriptors, hdispatch, hstatics, hsize⟩ := ofLinked_ok h
  obtain ⟨hm, hslots, -⟩ := methodRecords_ok hmethods
  obtain ⟨hc, hfields, -⟩ := classRecords_ok hclasses
  obtain ⟨hv, hpairs, -⟩ := dispatchRecords_ok hdispatch
  refine ⟨hm, hslots, hc, hfields, ?_, hv, hpairs, ?_, hsize⟩
  · rw [hdescriptors, length_map]
    refine Nat.lt_of_le_of_lt (length_filterMap_le _ _) ?_
    exact hn
  · obtain ⟨_, -, hstatics⟩ := except_bind_ok.1 hstatics
    obtain ⟨_, hword, hstatics⟩ := except_bind_ok.1 hstatics
    rw [except_pure_ok] at hstatics
    rw [← hstatics]
    simpa using checkWord_ok hword

theorem exists_of_build (h : Build.ofLinked c r linked entry = .ok b) :
    ∃ image, ofLinked c r linked entry = .ok image ∧
      LoadedImage.read b.bytes.toArray = .ok image.loaded := by
  obtain ⟨himage, hbytes, -⟩ := Build.ofLinked_parts h
  exact ⟨_, himage, hbytes ▸ LoadedImage.read_encode (fits_of_ofLinked himage)⟩

/-! ## Where the code starts -/

theorem codeOffsets_increasing (methods : List MethodRecord) (start : Nat) :
    ((methods.zip (placements start (methods.map (·.size)))).map
      fun e => e.2 + e.1.metadataSize).Pairwise (· < ·) := by
  refine pairwise_map.2 ((placed_pairwise (placed_zip _ methods start)).imp fun {a b} hle => ?_)
  have hpos : 0 < b.1.metadataSize := by
    unfold MethodRecord.metadataSize
    omega
  have hsize : a.1.size = a.1.metadataSize + a.1.code.size := rfl
  omega

theorem codeOffset_lt (h : image.Fits) : ∀ offset ∈ image.codeOffsets, offset < 4294967296 := by
  intro offset ho
  obtain ⟨e, he, rfl⟩ := mem_map.1 ho
  obtain ⟨-, -, hle⟩ := placed_le (fun m : MethodRecord => m.size) image.methods _ e he
  have hsize := h.size
  have hlen : image.sections.methods.length =
      2 + 8 * image.methods.length + total (image.methods.map (·.size)) :=
    length_methodSection image.methods
  rw [Sections.length_flatten] at hsize
  have hm : e.1.size = e.1.metadataSize + e.1.code.size := rfl
  dsimp only at hle ⊢
  omega

theorem codeOffsets_loaded (h : image.Fits) :
    image.codeOffsets = image.loaded.methods.toList.map (·.codeOffset.toNat) := by
  rw [loaded, map_map]
  refine map_congr_left fun e he => ?_
  exact (toNat_toUInt32 (codeOffset_lt h _ (mem_map.2 ⟨e, he, rfl⟩))).symm

theorem methodAt?_of_increasing {p : LoadedImage} {offset : UInt32} {i : Nat}
    (hinc : (p.methods.toList.map (·.codeOffset.toNat)).Pairwise (· < ·))
    (h : (p.methods.toList.map (·.codeOffset.toNat))[i]? = some offset.toNat) :
    p.methodAt? offset = some i := by
  rw [getElem?_map, Option.map_eq_some_iff] at h
  obtain ⟨m, hm, hoffset⟩ := h
  rw [Array.getElem?_toList] at hm
  obtain ⟨hi, rfl⟩ := Array.getElem?_eq_some_iff.1 hm
  rw [methodAt?, Array.findIdx?_eq_some_iff_getElem]
  refine ⟨hi, by simpa using UInt32.toNat_inj.1 hoffset, fun j hj => ?_⟩
  have hlt := pairwise_iff_getElem.1 hinc j i (by simp; omega) (by simpa using hi) hj
  simp only [getElem_map, Array.getElem_toList] at hlt
  intro heq
  rw [beq_iff_eq] at heq
  rw [heq] at hlt
  omega

/-! ## The image -/

theorem methods_loaded (image : Image) :
    image.loaded.methods.toList.map (·.toMethodRecord) = image.methods := by
  have hlen : image.methods.length ≤ (methodStarts image.methods).length := by
    simp [methodStarts]
  rw [loaded, map_map]
  exact map_fst_zip hlen

theorem readBack_of_link {r₀ : Registry} (hlink : Registry.link c r₀ = .ok linked r)
    (himage : ofLinked c r linked entry = .ok image) :
    ReadBack c r linked entry image image.loaded := by
  have hfits := fits_of_ofLinked himage
  obtain ⟨hscan, hentry, hlt, hmethods, hclasses, -, hdescriptors, hdispatch, hstatics, -⟩ :=
    ofLinked_ok himage
  obtain ⟨-, -, t, s, -, -, hdescribed, hlayout, htable⟩ := Registry.described_of_link hlink
  have hlen := Sections.length_flatten image.sections
  have hsize := hfits.size
  have hoffsets := codeOffsets_loaded hfits
  have hcount : image.codeOffsets.length = image.methods.length := by
    simp [codeOffsets, methodStarts]
  have hmatch := (methodRecords_ok hmethods).2.2
  obtain ⟨offset, hoffset⟩ : ∃ offset, image.codeOffsets[entry]? = some offset := by
    refine ⟨_, getElem?_eq_getElem ?_⟩
    rw [hcount, ← hmatch.length_eq]
    exact hlt
  have hheader : image.loaded.header.entryOffset.toNat = offset := by
    show (image.codeOffsets[image.entry]?.getD 0).toUInt32.toNat = offset
    rw [hentry, hoffset, Option.getD_some]
    exact toNat_toUInt32 (codeOffset_lt hfits _ (mem_of_getElem? hoffset))
  have hfilled : ∀ e ∈ linked.descriptors.entries.toList, e.descriptor.isSome := by
    rw [htable]
    exact fun e he => hdescribed.filled e (by simpa using he)
  have hstatic : ∀ f ∈ linked.layout.statics, f.descriptor.isSome := by
    rw [hlayout]
    intro f hf
    obtain ⟨i, hi⟩ := Array.mem_iff_getElem?.1 hf
    have hcount := congrArg Array.size hdescribed.statics
    simp only [Array.size_map] at hcount
    have hi' := (Array.getElem?_eq_some_iff.1 hi).1
    exact hdescribed.described i f (by omega) hi
  obtain ⟨-, hstaticSize, hentries⟩ := staticsRecord_ok hstatic hstatics
  refine {
    scanInterval := hscan
    entryOffset := by rw [hoffset, hheader]
    sections := ?_
    entry := ?_
    codeOffsets := hoffsets
    methods := ?_
    classes := (classRecords_ok hclasses).2.2
    dispatch := (dispatchRecords_ok hdispatch).2.2
    staticSize := hstaticSize
    statics := hentries
    descriptors := ?_ }
  · have lengths : image.loaded.header.sections = image.sections.lengths := rfl
    rw [length_encode, lengths]
    simp only [Sections.lengths]
    rw [toNat_toUInt32 (by omega), toNat_toUInt32 (by omega), toNat_toUInt32 (by omega),
      toNat_toUInt32 (by omega), toNat_toUInt32 (by omega)]
    omega
  · refine methodAt?_of_increasing ?_ ?_
    · rw [← hoffsets]
      exact codeOffsets_increasing _ _
    · rw [← hoffsets, hoffset, hheader]
  · rw [← forall₂_map_right_iff (f := LoadedMethod.toMethodRecord), methods_loaded]
    exact hmatch
  · show List.Forall₂ IsDescriptor _ image.descriptors
    rw [hdescriptors]
    exact descriptors_ok hfilled

/-- **The image of a build is read back.** Whatever compiling and linking produce, if it can be
written then the written form is read as an image with the entry, the methods and the tables of the
build. -/
theorem image_of_build_reads_back {c : BuildContext} {start : MethodRef} {index entry : Nat}
    {linked : Linked} {r : Registry} {image : Image}
    (hbuild : c.compileAndLink start {} = .ok (index, linked) r)
    (himage : ofLinked c r linked entry = .ok image) :
    ∃ p, LoadedImage.read image.encode.toArray = .ok p ∧ ReadBack c r linked entry image p := by
  obtain ⟨r₀, -, hlink⟩ := BuildContext.compileAndLink_ok hbuild
  exact ⟨image.loaded, read_encode (fits_of_ofLinked himage),
    readBack_of_link hlink himage⟩

/-- A program with a virtual call, an object with a field, an array and a static field. -/
def shapes : BuildContext where
  program := {
    types := #[
      { name := "Shape", isAbstract := true, methods := [⟨0⟩] },
      { name := "Square", base := some (.named ⟨0⟩ []), methods := [⟨1⟩, ⟨2⟩]
        fields := [{ name := "side", type := .primitive .i32 }] },
      { name := "P", methods := [⟨3⟩]
        fields := [{ name := "areas", type := .array (.primitive .i32), isStatic := true }] }]
    methods := #[
      { name := "Area", declaring := ⟨0⟩, ret := .primitive .i32, isAbstract := true
        isVirtual := true },
      { name := "Area", declaring := ⟨1⟩, ret := .primitive .i32, isVirtual := true
        body := some { code := #[{ op := .slot .arguments .load 0 },
          { op := .field false .load ⟨.named ⟨1⟩ [], "side"⟩ }, { op := .ret }] } },
      { name := ".ctor", declaring := ⟨1⟩, body := some { code := #[{ op := .ret }] } },
      { name := "Main", declaring := ⟨2⟩, ret := .primitive .i32, isStatic := true
        body := some { code := #[{ op := .const (.i4 1) }, { op := .newArray (.primitive .i32) },
          { op := .field true .store ⟨.named ⟨2⟩ [], "areas"⟩ },
          { op := .newObject ⟨.named ⟨1⟩ [], ".ctor", [], .void, true⟩ },
          { op := .call true ⟨.named ⟨0⟩ [], "Area", [], .primitive .i32, true⟩ },
          { op := .ret }] } }] }

def shapesEntry : MethodRef := ⟨.named ⟨2⟩ [], "Main", [], .primitive .i32, false⟩

def shapesRegistry : Registry := stateAfter (shapes.compileAndLink shapesEntry) {}

theorem shapes_read_back :
    ∃ index linked image, shapes.compileAndLink shapesEntry {} = .ok (index, linked) shapesRegistry ∧
      ofLinked shapes shapesRegistry linked index = .ok image ∧
      ∃ p, LoadedImage.read image.encode.toArray = .ok p ∧
        ReadBack shapes shapesRegistry linked index image p := by
  have h : (((shapes.compileAndLink shapesEntry).run' {}).any fun built =>
      (ofLinked shapes shapesRegistry built.2 built.1).toOption.any fun _ => true) = true := by
    decide +kernel
  obtain ⟨⟨index, linked⟩, hrun, h⟩ := ok_of_any h
  obtain ⟨image, himage, -⟩ := except_any_toOption.1 h
  exact ⟨index, linked, image, hrun, himage, image_of_build_reads_back hrun himage⟩

end Image

end DeviceCode
