import DeviceCode.Proofs.Image.Linked
import DeviceCode.Proofs.Registry.FieldAccesses

/-!
# The address map

`CodePlaced bytes items`: the code of methods stands in an image, each at its base, one behind the other,
and no instruction is without bytes. Then the entries of the listing are in the order of their addresses
before they are sorted (`CodePlaced.increasing`), and an address finds the instruction whose bytes it lies
in (`CodePlaced.lookup`). Main statement: `Build.listing_inverts_placement`, for every build.
-/

namespace DeviceCode

open Image

open LoadedImage

open List

/-! ## Instructions of a method -/

/-- The chunks lie end to end, and none is empty. -/
structure CompiledMethod.Contiguous (m : CompiledMethod) : Prop where
  offsets : m.chunks.toList.map (·.offset) = placements 0 (m.chunks.toList.map (·.bytes.length))
  nonempty : ∀ chunk ∈ m.chunks, 0 < chunk.bytes.length

variable {methods : List CompiledMethod} {bases : List Nat} {l : Lowering}

theorem Lowering.Lowers.totalSize_pos {index : Nat} {op : Op} {o : LoweredOp}
    (h : l.Lowers index op o) : 0 < Piece.totalSize o.pieces := by
  have hfirst : ∃ opcode rest, o.pieces = .opcode opcode :: rest := by
    cases h with
    | plain h =>
      obtain ⟨opcode, hplain⟩ := lowerPlain_plain h
      obtain ⟨rest, hrest, -⟩ := hplain.pieces
      exact ⟨opcode, rest, hrest⟩
    | call isVirtual m target key =>
      split
      · exact ⟨_, _, rfl⟩
      · cases target <;> exact ⟨_, _, rfl⟩
    | _ => exact ⟨_, _, rfl⟩
  obtain ⟨opcode, rest, hrest⟩ := hfirst
  rw [hrest]
  exact Nat.add_pos_left Nat.one_pos _

theorem Chunk.offset_chunksFor (value : Nat → Nat → LinkOperand → UInt16) (pieces : List (List Piece)) :
    (chunksFor value pieces).map (·.offset) = offsets pieces := by
  rw [chunksFor, map_map]
  calc _ = ((pieces.zip (offsets pieces)).zipIdx.map Prod.fst).map Prod.snd := by
        rw [map_map]
        rfl
    _ = offsets pieces := by
        rw [zipIdx_map_fst, map_snd_zip (by simp [length_offsets])]

theorem Registry.Installed.contiguous {c : BuildContext} {r : Registry} {t : TypeTables}
    {m : CompiledMethod} {d : MethodDef} {body : Body} {ops : List LoweredOp}
    {value : Nat → Nat → LinkOperand → UInt16} (h : Installed c r t m d body l ops value) :
    m.Contiguous where
  offsets := by
    rw [h.chunks, Chunk.length_bytes_chunksFor]
    exact Chunk.offset_chunksFor value _
  nonempty chunk hchunk := by
    have hlength : chunk.bytes.length ∈ (ops.map (·.pieces)).map Piece.totalSize := by
      rw [← Chunk.length_bytes_chunksFor value, ← h.chunks]
      exact mem_map_of_mem (Array.mem_toList_iff.2 hchunk)
    obtain ⟨pieces, hpieces, hsize⟩ := mem_map.1 hlength
    obtain ⟨o, ho, rfl⟩ := mem_map.1 hpieces
    obtain ⟨item, -, hlowers⟩ := forall₂_mem_right h.lowers o ho
    exact hsize ▸ hlowers.totalSize_pos

/-! ## Placed code -/

/-- The code of the methods stands in the bytes, each at its base, one behind the other. -/
structure CodePlaced (bytes : Array UInt8) (items : List (CompiledMethod × Nat)) : Prop where
  size : bytes.size < 4294967296
  held : ∀ item ∈ items, Holds bytes item.2 item.1.code
  apart : items.Pairwise fun a b => a.2 + a.1.code.length ≤ b.2
  contiguous : ∀ item ∈ items, item.1.Contiguous

/-- The entry of an instruction, and the address behind its bytes. -/
def span (m : CompiledMethod) (base k : Nat) (chunk : Chunk) (i : Nat) : AddressEntry × Nat :=
  (⟨base.toUInt32 + chunk.offset.toUInt32, k, i, m.lines[i]?.join⟩,
    base + chunk.offset + chunk.bytes.length)

/-- All of them, method by method. -/
def spans (items : List (CompiledMethod × Nat)) : List (AddressEntry × Nat) :=
  items.zipIdx.flatMap fun e => e.1.1.chunks.toList.zipIdx.map fun f => span e.1.1 e.1.2 e.2 f.1 f.2

section
variable {bytes : Array UInt8} {items : List (CompiledMethod × Nat)} {m : CompiledMethod}
  {base i k : Nat} {chunk : Chunk} {s : AddressEntry × Nat}

theorem mem_spans : s ∈ spans items ↔ ∃ k m base i chunk,
    items[k]? = some (m, base) ∧ m.chunks[i]? = some chunk ∧ s = span m base k chunk i := by
  simp only [spans, mem_flatMap, mem_map, Prod.exists, mem_zipIdx_iff_getElem?,
    Array.getElem?_toList]
  grind

theorem Listing.entries_ofMethods (methods : List CompiledMethod) (bases : List Nat) :
    (ofMethods methods (bases.map Nat.toUInt32)).entries =
      ((spans (methods.zip bases)).map (·.1)).mergeSort fun a b => a.address ≤ b.address := by
  unfold ofMethods spans
  dsimp only
  rw [zip_map_right, zipIdx_map, map_map, flatMap_map, map_flatMap]
  refine congrArg (mergeSort · _) (flatMap_congr fun e _ => ?_)
  rw [map_map]
  rfl

namespace CodePlaced

variable (h : CodePlaced bytes items)
include h

theorem chunk_within (hitem : (m, base) ∈ items) (hchunk : chunk ∈ m.chunks) :
    chunk.offset + chunk.bytes.length ≤ m.code.length := by
  have hcontiguous : m.Contiguous := h.contiguous _ hitem
  have hwithin := placed_within hcontiguous.offsets chunk (Array.mem_toList_iff.2 hchunk)
  have hlength : m.code.length = total (m.chunks.toList.map (·.bytes.length)) :=
    length_flatMap_total _ _
  omega

theorem toNat_address (hitem : (m, base) ∈ items) (hchunk : chunk ∈ m.chunks) :
    (base.toUInt32 + chunk.offset.toUInt32).toNat = base + chunk.offset := by
  have hwithin := h.chunk_within hitem hchunk
  have hheld : base + m.code.length ≤ bytes.size := (h.held _ hitem).size_le
  have hsize := h.size
  rw [UInt32.toNat_add, toNat_toUInt32 (by omega), toNat_toUInt32 (by omega)]
  exact Nat.mod_eq_of_lt (show base + chunk.offset < 4294967296 by omega)

/-- **An instruction ends before the next one starts**, also in another method. -/
theorem apart_spans : (spans items).Pairwise fun s t => s.2 ≤ t.1.address.toNat := by
  refine pairwise_flatMap.2 ⟨?_, ?_⟩
  · rintro ⟨⟨m, base⟩, k⟩ hitem
    have hitem : (m, base) ∈ items := mem_of_getElem? (mem_zipIdx_iff_getElem?.1 hitem)
    have hplaced := placed_pairwise (h.contiguous (m, base) hitem).offsets
    rw [← zipIdx_map_fst 0 m.chunks.toList, pairwise_map] at hplaced
    refine pairwise_map.2 (hplaced.imp_of_mem fun {a b} _ hb hle => ?_)
    have hchunk := Array.mem_toList_iff.1 (mem_of_getElem? (mem_zipIdx_iff_getElem?.1 hb))
    show base + a.1.offset + a.1.bytes.length ≤ (base.toUInt32 + b.1.offset.toUInt32).toNat
    rw [h.toNat_address hitem hchunk]
    omega
  · have hplaced := h.apart
    rw [← zipIdx_map_fst 0 items, pairwise_map] at hplaced
    refine hplaced.imp_of_mem fun {a b} ha hb hle => ?_
    obtain ⟨⟨m, base⟩, k⟩ := a
    obtain ⟨⟨m', base'⟩, k'⟩ := b
    have ha : (m, base) ∈ items := mem_of_getElem? (mem_zipIdx_iff_getElem?.1 ha)
    have hb : (m', base') ∈ items := mem_of_getElem? (mem_zipIdx_iff_getElem?.1 hb)
    simp only [mem_map, Prod.exists, mem_zipIdx_iff_getElem?, Array.getElem?_toList]
    rintro s ⟨chunk, i, hchunk, rfl⟩ t ⟨chunk', j, hchunk', rfl⟩
    have hwithin := h.chunk_within ha (Array.mem_of_getElem? hchunk)
    show base + chunk.offset + chunk.bytes.length ≤ (base'.toUInt32 + chunk'.offset.toUInt32).toNat
    rw [h.toNat_address hb (Array.mem_of_getElem? hchunk')]
    dsimp only at hle
    omega

theorem nonempty_spans : ∀ s ∈ spans items, s.1.address.toNat < s.2 := by
  intro s hs
  obtain ⟨k, m, base, i, chunk, hitem, hchunk, rfl⟩ := mem_spans.1 hs
  have hitem := mem_of_getElem? hitem
  have hchunk := Array.mem_of_getElem? hchunk
  have hpos := (h.contiguous _ hitem).nonempty chunk hchunk
  show (base.toUInt32 + chunk.offset.toUInt32).toNat < base + chunk.offset + chunk.bytes.length
  rw [h.toNat_address hitem hchunk]
  omega

/-- **The entries are in the order of their addresses** before they are sorted. -/
theorem increasing : ((spans items).map (·.1)).Pairwise fun e e' => e.address < e'.address := by
  refine pairwise_map.2 (h.apart_spans.imp_of_mem fun {s t} hs _ hle => ?_)
  have hpos := h.nonempty_spans s hs
  exact UInt32.lt_iff_toNat_lt.2 (by omega)

/-- **An address finds the instruction whose bytes it lies in.** -/
theorem lookup {l : Listing} (hl : l.entries = (spans items).map (·.1))
    (hs : s ∈ spans items) {address : UInt32} (hstart : s.1.address ≤ address)
    (hstop : address.toNat < s.2) : l.lookup address = some s.1 := by
  obtain ⟨before, after, hsplit⟩ := append_of_mem hs
  have hincreasing := h.increasing
  have hapart := h.apart_spans
  rw [hsplit, map_append] at hincreasing
  rw [hsplit] at hapart
  have hbefore : ∀ e ∈ before.map (·.1) ++ [s.1], decide (e.address ≤ address) = true := by
    intro e he
    rw [decide_eq_true_iff]
    rcases mem_append.1 he with he | he
    · have hlt := (pairwise_append.1 hincreasing).2.2 e he s.1 mem_cons_self
      exact UInt32.le_trans (UInt32.le_of_lt hlt) hstart
    · rw [mem_singleton.1 he]
      exact hstart
  -- what follows starts behind the address
  have hafter : (after.map (·.1)).takeWhile (·.address ≤ address) = [] := by
    cases after with
    | nil => rfl
    | cons t after =>
      have hle := rel_of_pairwise_cons (pairwise_append.1 hapart).2.1 mem_cons_self
      refine takeWhile_cons_of_neg (show ¬decide (t.1.address ≤ address) = true from ?_)
      rw [decide_eq_true_iff, UInt32.le_iff_toNat_le]
      omega
  have hentries : l.entries = (before.map (·.1) ++ [s.1]) ++ after.map (·.1) := by
    rw [hl, hsplit]
    simp
  rw [Listing.lookup, hentries, takeWhile_append_of_pos hbefore, hafter, append_nil]
  exact getLast?_concat

theorem entries_eq (hitems : items = methods.zip bases) :
    (Listing.ofMethods methods (bases.map Nat.toUInt32)).entries = (spans items).map (·.1) := by
  rw [Listing.entries_ofMethods, ← hitems]
  exact mergeSort_of_pairwise (h.increasing.imp fun hlt => by
    rw [decide_eq_true_iff]
    exact UInt32.le_of_lt hlt)

theorem byte_at (hitem : (m, base) ∈ items) (hchunk : m.chunks[i]? = some chunk) {a : Nat}
    (hstart : base + chunk.offset ≤ a) (hstop : a < base + chunk.offset + chunk.bytes.length) :
    bytes[a]? = chunk.bytes[a - (base + chunk.offset)]? := by
  have hcontiguous : m.Contiguous := h.contiguous _ hitem
  have hcode : Holds bytes (base + 0) (m.chunks.toList.flatMap (·.bytes)) := h.held _ hitem
  have hheld := hcode.at_offset hcontiguous.offsets chunk
    (Array.mem_toList_iff.2 (Array.mem_of_getElem? hchunk))
  obtain ⟨n, rfl⟩ := Nat.exists_eq_add_of_le hstart
  rw [Nat.add_sub_cancel_left]
  exact hheld.getElem? (by omega)

end CodePlaced

end

/-! ## Builds -/

section
variable {c : BuildContext} {r : Registry} {linked : Linked} {entry : Nat} {image : Image}

theorem Image.code_held (image : Image) :
    ∀ e ∈ image.methods.zip (methodStarts image.methods),
      Holds image.encode.toArray (e.2 + e.1.metadataSize) e.1.code.toList := by
  intro e he
  have hall : Holds image.encode.toArray 0 (image.header.encode ++ image.sections.flatten) := by
    have hwhole := Holds.of_append [] image.encode []
    rwa [append_nil] at hwhole
  have hsections := (Holds.append.1 hall).2
  simp only [Sections.flatten, Holds.append] at hsections
  have hmethods : Holds image.encode.toArray (0 + image.header.encode.length)
      (methodSection image.methods) := hsections.1.1.1.1
  rw [length_header] at hmethods
  have hrecords := (Holds.append.1 hmethods).2
  rw [length_append, length_flatMap_const (n := 8) _
    (fun _ _ => rfl), methodStarts, length_zip_placements, ← Nat.add_assoc] at hrecords
  have hsizes : (image.methods.map fun m => m.encode.length) = image.methods.map (·.size) := by
    simp [LoadedImage.length_encode]
  have hrecord := hrecords.placed e (by rw [hsizes]; exact he)
  rw [MethodRecord.encode, Holds.append, length_metadata] at hrecord
  exact hrecord.2

theorem CodePlaced.of_link {start : MethodRef}
    (hcompile : c.compileAndLink start {} = .ok (entry, linked) r)
    (himage : Image.ofLinked c r linked entry = .ok image) :
    CodePlaced image.encode.toArray (r.methods.toList.zip image.codeOffsets) := by
  obtain ⟨r₀, hentry, hlink⟩ := BuildContext.compileAndLink_ok hcompile
  obtain ⟨t, -, -, hinstalled⟩ := Registry.installed_of_link hentry hlink
  obtain ⟨-, -, -, hmethods, -⟩ := ofLinked_ok himage
  have hrecords := (methodRecords_ok hmethods).2.2
  -- the code and the base of a method are those of its record
  have hcodes : List.Forall₂ (· = ·) (r.methods.toList.map (·.code))
      (image.methods.map (·.code.toList)) :=
    forall₂_map_left_iff.2 (forall₂_map_right_iff.2 (hrecords.imp fun _ _ h => h.code.symm))
  rw [forall₂_eq_eq_eq] at hcodes
  have hitems : (r.methods.toList.zip image.codeOffsets).map (fun item => (item.1.code, item.2)) =
      (image.methods.zip (methodStarts image.methods)).map fun e =>
        (e.1.code.toList, e.2 + e.1.metadataSize) := by
    calc _ = (r.methods.toList.map (·.code)).zip image.codeOffsets := zip_map_left.symm
      _ = ((image.methods.zip (methodStarts image.methods)).map (·.1.code.toList)).zip
          image.codeOffsets := by
        have hfirst : image.methods = (image.methods.zip (methodStarts image.methods)).map (·.1) :=
          (map_fst_zip (by simp [methodStarts])).symm
        rw [hcodes]
        nth_rewrite 1 [hfirst]
        rw [map_map]
        rfl
      _ = _ := zip_map'
  refine ⟨?_, fun item hitem => ?_, ?_, fun item hitem => ?_⟩
  · rw [size_toArray, Image.length_encode]
    exact (fits_of_ofLinked himage).size
  · have hmem := mem_map_of_mem (f := fun item : CompiledMethod × Nat => (item.1.code, item.2)) hitem
    rw [hitems] at hmem
    obtain ⟨e, he, heq⟩ := mem_map.1 hmem
    obtain ⟨hcode, hbase⟩ := Prod.mk.inj heq
    rw [← hcode, ← hbase]
    exact image.code_held e he
  · have hapart : ((r.methods.toList.zip image.codeOffsets).map fun item =>
        (item.1.code, item.2)).Pairwise fun a b => a.2 + a.1.length ≤ b.2 := by
      rw [hitems, pairwise_map]
      refine (placed_pairwise (placed_zip _ image.methods _)).imp fun {a b} hle => ?_
      have hsize : a.1.size = a.1.metadataSize + a.1.code.size := rfl
      have hlength : a.1.code.toList.length = a.1.code.size := Array.length_toList
      dsimp only
      omega
    exact pairwise_map.1 hapart
  · obtain ⟨i, hi⟩ := Array.mem_iff_getElem?.1 (Array.mem_toList_iff.1 (of_mem_zip hitem).1)
    obtain ⟨m, d, body, l, ops, value, hm, h⟩ := hinstalled i (Array.getElem?_eq_some_iff.1 hi).1
    cases hi.symm.trans hm
    exact h.contiguous

/-- The listing of a build inverts the placement of its code. -/
structure Build.ListingInverts (p : Program) (r : Registry) (b : Build) : Prop where
  bases : b.image.codeOffsets.length = r.methods.size
  size : b.bytes.length < 4294967296
  /-- An address in an instruction holds the byte of it and finds it. -/
  found : ∀ {k m base i chunk a}, r.methods[k]? = some m → b.image.codeOffsets[k]? = some base →
    m.chunks[i]? = some chunk → base + chunk.offset ≤ a →
    a < base + chunk.offset + chunk.bytes.length →
    b.bytes[a]? = chunk.bytes[a - (base + chunk.offset)]? ∧
      ∃ d body, p.methodDef? m.method = some d ∧ d.body = some body ∧
        b.listing.lookup a.toUInt32 =
          some ⟨(base + chunk.offset).toUInt32, k, i, body.code[i]?.bind (·.line)⟩
  increasing : b.listing.entries.Pairwise fun e e' => e.address < e'.address
  /-- There is one entry for each instruction of each method. -/
  entries : b.listing.entries.map (fun e => (e.method, e.instruction)) =
    r.methods.toList.zipIdx.flatMap fun e => (List.range e.1.chunks.size).map fun i => (e.2, i)
  instructions : ∀ m ∈ r.methods, ∃ d body, p.methodDef? m.method = some d ∧ d.body = some body ∧
    m.chunks.size = body.code.size

theorem spans_instructions (h : bases.length = methods.length) :
    (spans (methods.zip bases)).map (fun s => (s.1.method, s.1.instruction)) =
      methods.zipIdx.flatMap fun e => (List.range e.1.chunks.size).map fun i => (e.2, i) := by
  have hfirst : methods = (methods.zip bases).map (·.1) := (map_fst_zip (by omega)).symm
  rw [spans, map_flatMap]
  nth_rewrite 2 [hfirst]
  rw [zipIdx_map, flatMap_map]
  refine flatMap_congr fun e _ => ?_
  rw [← Array.length_toList, range_eq_range', ← zipIdx_map_snd, map_map, map_map]
  rfl

namespace Build

/-- **The address map inverts the placement of the code.** In every build an address of the image that lies
in the bytes of an instruction holds that byte, and the listing finds the instruction there, with its
method and its source line; the entries are in the order of their addresses, one for each instruction. -/
theorem listing_inverts_placement {c : BuildContext} {start : MethodRef} {entry : Nat} {linked : Linked}
    {r : Registry} {b : Build} (hcompile : c.compileAndLink start {} = .ok (entry, linked) r)
    (hbuild : Build.ofLinked c r linked entry = .ok b) : b.ListingInverts c.program r := by
  obtain ⟨himage, hbytes, hlisting⟩ := ofLinked_parts hbuild
  obtain ⟨r₀, hentry, hlink⟩ := BuildContext.compileAndLink_ok hcompile
  obtain ⟨t, -, -, hinstalled⟩ := Registry.installed_of_link hentry hlink
  obtain ⟨r₁, hbind, -⟩ := Registry.methods_of_link hentry hlink
  have hsurveyed {i : Nat} {m : CompiledMethod} := (Registry.surveyed_of_link hentry hbind hlink).1
    (i := i) (m := m)
  have hplaced := CodePlaced.of_link hcompile himage
  have hentries : b.listing.entries = _ := hlisting ▸ hplaced.entries_eq rfl
  have hcount : b.image.codeOffsets.length = r.methods.toList.length := by
    obtain ⟨-, -, -, hmethods, -⟩ := Image.ofLinked_ok himage
    rw [(Image.methodRecords_ok hmethods).2.2.length_eq]
    simp [Image.codeOffsets, Image.methodStarts]
  refine ⟨by simpa using hcount, ?_, fun {k m base i chunk a} hm hbase hchunk hstart hstop => ?_, ?_, ?_,
    fun m hm => ?_⟩
  · simpa [hbytes] using hplaced.size
  · have hitem : (r.methods.toList.zip b.image.codeOffsets)[k]? = some (m, base) := by
      rw [getElem?_zip_eq_some]
      exact ⟨by simpa using hm, hbase⟩
    have hmem := mem_of_getElem? hitem
    have hwithin := hplaced.chunk_within hmem (Array.mem_of_getElem? hchunk)
    have hheld : base + m.code.length ≤ _ := (hplaced.held _ hmem).size_le
    have hlt : a < 4294967296 := by
      have hsize := hplaced.size
      omega
    have haddress := hplaced.toNat_address hmem (Array.mem_of_getElem? hchunk)
    have ha := toNat_toUInt32 hlt
    have hfound := hplaced.lookup hentries (mem_spans.2 ⟨k, m, base, i, chunk, hitem, hchunk, rfl⟩)
      (UInt32.le_iff_toNat_le.2 (Nat.le_trans (Nat.le_of_eq haddress) (ha.symm ▸ hstart)))
      (ha.symm ▸ hstop)
    obtain ⟨d, body, hd, hbody, hlines⟩ := (hsurveyed hm).sourced
    refine ⟨?_, d, body, hd, hbody, hfound.trans ?_⟩
    · rw [hbytes, ← hplaced.byte_at hmem hchunk hstart hstop]
      simp
    · have hsum : base.toUInt32 + chunk.offset.toUInt32 = (base + chunk.offset).toUInt32 :=
        UInt32.toNat_inj.1 (haddress.trans (toNat_toUInt32 (by omega)).symm)
      rw [span, hsum, hlines, Array.getElem?_map]
      cases body.code[i]? <;> rfl
  · rw [hentries]
    exact hplaced.increasing
  · rw [hentries, map_map]
    exact spans_instructions hcount
  · obtain ⟨i, hi⟩ := Array.mem_iff_getElem?.1 hm
    obtain ⟨m', d, body, l, ops, value, hm', h⟩ := hinstalled i (Array.getElem?_eq_some_iff.1 hi).1
    cases hi.symm.trans hm'
    refine ⟨d, body, h.method, h.source, ?_⟩
    have hlength := congrArg length h.chunks
    simpa [Chunk.chunksFor, h.length_ops] using hlength

/-- A method and one that it calls, with source lines. -/
def chime : BuildContext where
  program := {
    types := #[{ name := "Chime", methods := [⟨0⟩, ⟨1⟩] }]
    methods := #[
      { name := "Main", declaring := ⟨0⟩, ret := .primitive .i32, isStatic := true
        body := some { code := #[{ op := .const (.i4 2), line := some 7 },
          { op := .call false ⟨.named ⟨0⟩ [], "Ring", [.primitive .i32], .primitive .i32, false⟩
            line := some 8 },
          { op := .ret, line := some 8 }] } },
      { name := "Ring", declaring := ⟨0⟩, params := [.primitive .i32], ret := .primitive .i32
        isStatic := true
        body := some { code := #[{ op := .slot .arguments .load 0, line := some 12 },
          { op := .ret }] } }] }

def chimeEntry : MethodRef := ⟨.named ⟨0⟩ [], "Main", [], .primitive .i32, false⟩

def chimeRegistry : Registry := stateAfter (chime.compileAndLink chimeEntry) {}

theorem chime_listing : ∃ entry linked b,
    chime.compileAndLink chimeEntry {} = .ok (entry, linked) chimeRegistry ∧
    Build.ofLinked chime chimeRegistry linked entry = .ok b ∧
    chimeRegistry.methods.map (·.chunks.size) = #[3, 2] ∧
    b.ListingInverts chime.program chimeRegistry := by
  have hsizes : chimeRegistry.methods.map (·.chunks.size) = #[3, 2] := by decide +kernel
  obtain ⟨entry, linked, b, hrun, hb, -⟩ :=
    @Build.exists_of_any chime chimeEntry (fun _ _ => true) (by decide +kernel)
  exact ⟨entry, linked, b, hrun, hb, hsizes, listing_inverts_placement hrun hb⟩

end Build

end

end DeviceCode
