import DeviceCode.Proofs.Machine.Moves
import DeviceCode.Proofs.Machine.Shapes

/-!
# Typings of operand stacks

A typing says which shapes the operands of a method have at the positions of its code. It is checked
instruction by instruction (`StackTyping.accepts`): the shapes after an instruction, which
`MachineOp.flow` gives, are those that the typing has where control goes on, and what a method returns
has the shape of its result. Main statement: `Moves.types`, what one step does to frames with such
operands.
-/

namespace DeviceCode

open Shape

open List

variable {v : Value} {s : Shape} {shapes' shapes : List Shape} {f' f : Frame} {k pc callee : Nat}
  {value : Option Value} {args : SlotArea}

/-! ## What instructions do to shapes -/

/-- The shape of what the slot at the offset gives. -/
def AreaSlots.shapeAt (a : AreaSlots) (slot : Nat) : Shape :=
  match a.places.find? (·.offset == slot) with
  | some place => Shape.ofTag place.tag
  | none => .any

theorem AreaSlots.Intact.load_has {a : AreaSlots} (htiled : a.Tiled) {area : SlotArea}
    (h : a.Intact area) {slot : Nat} (hload : area.load slot = some v) :
    (a.shapeAt slot).Has v := by
  unfold shapeAt
  cases hfound : a.places.find? (·.offset == slot) with
  | none => exact trivial
  | some place =>
    have hslot : place.offset = slot := by simpa using find?_some hfound
    subst hslot
    exact Shape.load_has (h.tagAt? htiled (mem_of_find?_eq_some hfound)) hload

namespace Shape

/-- The shapes when the uppermost operand is replaced; none if there is none. -/
def replace₁ (shapes : List Shape) (leaves : Shape → List Shape) : Option (List Shape) :=
  match shapes with
  | s :: rest => some (leaves s ++ rest)
  | [] => none

/-- The shapes when the two uppermost operands are replaced, the lower one is given first. -/
def replace₂ (shapes : List Shape) (leaves : Shape → Shape → List Shape) : Option (List Shape) :=
  match shapes with
  | b :: a :: rest => some (leaves a b ++ rest)
  | _ => none

end Shape

/-- The shapes of the operands after an instruction of the method, the uppermost first; none if operands
are missing. A call and a return leave the frame. -/
def MachineOp.flow (e : CompiledMethod) (layout : LayoutTable) (builtins : BuiltinTable)
    (shapes : List Shape) : MachineOp → Option (List Shape)
  | .nop | .jump _ | .unsupported _ => some shapes
  | .load area slot => some ((e.areaSlots area).shapeAt slot :: shapes)
  | .loadStatic slot => some (layout.staticSlots.shapeAt slot :: shapes)
  | .const v => some (Shape.ofValue v :: shapes)
  | .store _ _ | .storeStatic _ | .pop | .jumpIf _ _ | .switch _ _ =>
    Shape.replace₁ shapes fun _ => []
  | .dup => Shape.replace₁ shapes fun s => [s, s]
  | .neg => Shape.replace₁ shapes fun s => [s.neg]
  | .complement => Shape.replace₁ shapes fun _ => [Shape.int32]
  | .convert conversion => Shape.replace₁ shapes fun _ => [Shape.ofConversion conversion]
  | .jumpTest _ _ => Shape.replace₂ shapes fun _ _ => []
  | .binary kind => Shape.replace₂ shapes fun a b => [Shape.binary kind a b]
  | .compare _ => Shape.replace₂ shapes fun _ _ => [Shape.ints 0 1]
  | .callBuiltin id =>
    (builtins.get? id).map fun b =>
      (if b.native.any (·.ret == .f32) then Shape.float else Shape.int32) ::
        shapes.drop (Library.arity b.signature)
  | .ret | .call _ => none

/-- The operands have the shapes, the uppermost first. -/
def Frame.Shaped (f : Frame) (shapes : List Shape) : Prop :=
  List.Forall₂ Shape.Has shapes f.stack.toList.reverse

namespace Frame

variable (h : f.Shaped shapes)
include h

theorem push_shaped (maxStack : UInt16) (place : CodeAddress) (hv : s.Has v) :
    Ensures (fun _ => True) (fun f' => f'.Shaped (s :: shapes)) (f.push maxStack place v) := by
  unfold push
  split
  · exact trivial
  · show List.Forall₂ _ _ (f.stack.push v).toList.reverse
    rw [Array.toList_push, reverse_append]
    exact .cons hv h

omit h in
theorem Shaped.uncons (h : f.Shaped (s :: shapes)) (hv : f.stack.back? = some v) :
    s.Has v ∧ List.Forall₂ Shape.Has shapes f.stack.pop.toList.reverse := by
  rw [← Array.getLast?_toList] at hv
  unfold Shaped at h
  rw [← dropLast_append_getLast? v hv, reverse_append, ← Array.toList_pop] at h
  cases h with
  | cons hhas hrest => exact ⟨hhas, hrest⟩

omit h in
theorem pop_shaped (h : f.Shaped (s :: shapes)) (place : CodeAddress) :
    Ensures (fun _ => True) (fun e => s.Has e.1 ∧ e.2.Shaped shapes) (f.pop place) := by
  unfold pop
  split
  · exact trivial
  · rename_i v hv
    exact h.uncons hv

theorem popMany_shaped (place : CodeAddress) (n : Nat) :
    Ensures (fun _ => True) (fun e => e.2.Shaped (shapes.drop n)) (f.popMany place n) := by
  unfold popMany
  split
  · exact trivial
  · show List.Forall₂ _ _ (f.stack.take (f.stack.size - n)).toList.reverse
    have htake : (f.stack.take (f.stack.size - n)).toList =
        f.stack.toList.take (f.stack.toList.length - n) := by simp
    rw [htake, ← drop_reverse]
    exact forall₂_drop n h

omit h in
theorem load_gives (f : Frame) (area : Area) (slot : Nat) :
    Ensures (fun _ => True) (fun v => (f.area area).load slot = some v) (f.load area slot) := by
  rw [load_eq]
  cases (f.area area).load slot with
  | none => exact trivial
  | some v => exact rfl

theorem store_shaped (area : Area) (slot : Nat) (v : Value) :
    Ensures (fun _ => True) (fun f' => f'.Shaped shapes) (f.store area slot v) := by
  rw [store_eq]
  cases (f.area area).store slot v with
  | none => exact trivial
  | some bytes => cases area <;> exact h

end Frame

namespace Machine

section
variable {m : Machine} {method : LoadedMethod} {place : CodeAddress} {statics : SlotArea}

/-- The frame goes on with operands of the shapes. -/
def NextShaped (shapes : List Shape) : Effect → Prop
  | .next f _ => f.Shaped shapes
  | _ => True

theorem push_nextShaped (h : f'.Shaped shapes) (hv : s.Has v) :
    Ensures (fun _ => True) (NextShaped (s :: shapes))
      (f'.push method.maxStack place v >>= fun f' => pure (.next f' statics)) :=
  (f'.push_shaped h method.maxStack place hv).bind fun _ hf => hf

theorem replace₁_nextShaped (h : f.Shaped shapes) {leaves : Shape → List Shape}
    (hflow : Shape.replace₁ shapes leaves = some shapes') {go : Value × Frame → Except RunError Effect}
    (hgo : ∀ s rest v f', s.Has v → f'.Shaped rest →
      Ensures (fun _ => True) (NextShaped (leaves s ++ rest)) (go (v, f'))) :
    Ensures (fun _ => True) (NextShaped shapes') (f.pop place >>= go) := by
  cases shapes with
  | nil => cases hflow
  | cons s rest =>
    cases hflow
    exact (Frame.pop_shaped h place).bind fun e he => hgo s rest e.1 e.2 he.1 he.2

theorem replace₂_nextShaped (h : f.Shaped shapes) {leaves : Shape → Shape → List Shape}
    (hflow : Shape.replace₂ shapes leaves = some shapes')
    {go : Value × Value × Frame → Except RunError Effect}
    (hgo : ∀ a b rest x y f', a.Has x → b.Has y → f'.Shaped rest →
      Ensures (fun _ => True) (NextShaped (leaves a b ++ rest)) (go (x, y, f'))) :
    Ensures (fun _ => True) (NextShaped shapes') (f.pop₂ place >>= go) := by
  match shapes, hflow with
  | b :: a :: rest, rfl =>
    unfold Frame.pop₂
    simp only [bind_assoc]
    refine (Frame.pop_shaped h place).bind fun e he => ?_
    refine (Frame.pop_shaped he.2 place).bind fun e' he' => ?_
    exact hgo a b rest e'.1 e.1 e'.2 he'.1 he.1 he'.2

theorem operand_eq {α : Type} (x : Except OperandFault α) :
    Ensures (fun _ => True) (fun a => x = .ok a) (operand place x) := by
  cases x with
  | ok a => exact rfl
  | error e => exact trivial

theorem callBuiltin_shaped (h : f.Shaped shapes) {id : UInt16} {b : Builtin}
    (hb : m.builtins.get? id = some b) :
    Ensures (fun _ => True) (fun f' => f'.Shaped
      ((if b.native.any (·.ret == .f32) then Shape.float else Shape.int32) ::
        shapes.drop (Library.arity b.signature)))
      (m.callBuiltin place id method.maxStack f) := by
  unfold callBuiltin
  rw [hb]
  refine (f.popMany_shaped h place _).bind fun e he => ?_
  dsimp only
  cases hcall : Library.call b.signature (b.native.any (·.ret == .f32)) e.1 with
  | none => exact trivial
  | some v => exact e.2.push_shaped he method.maxStack place (call_has hcall)

variable {e : CompiledMethod} {layout : LayoutTable} {op : MachineOp}

/-- **The operands after an instruction** have the shapes that its flow gives. -/
theorem perform_flows (htiled : ∀ area, (e.areaSlots area).Tiled)
    (hintact : ∀ area, (e.areaSlots area).Intact (f.area area))
    (hstatics : layout.staticSlots.Tiled) (hkept : layout.staticSlots.Intact statics)
    (h : f.Shaped shapes) (hflow : op.flow e layout m.builtins shapes = some shapes') :
    Ensures (fun _ => True) (NextShaped shapes') (m.perform method place f statics op) := by
  cases op with
  | nop =>
    cases hflow
    exact h
  | load area slot =>
    cases hflow
    refine (f.load_gives area slot).bind fun v hv => ?_
    exact push_nextShaped h ((hintact area).load_has (htiled area) hv)
  | store area slot =>
    refine replace₁_nextShaped h hflow fun s rest v f' _ hrest => ?_
    exact (f'.store_shaped hrest area slot v).bind fun _ hf => hf
  | const v =>
    cases hflow
    exact push_nextShaped h (ofValue_has v)
  | dup =>
    cases shapes with
    | nil => cases hflow
    | cons s rest =>
      cases hflow
      unfold perform
      dsimp only
      split
      · exact trivial
      · rename_i v hv
        exact push_nextShaped h (h.uncons hv).1
  | pop => exact replace₁_nextShaped h hflow fun s rest v f' _ hrest => hrest
  | ret => cases hflow
  | jump target =>
    cases hflow
    exact h
  | jumpIf sense target =>
    refine replace₁_nextShaped h hflow fun s rest v f' _ hrest => ?_
    show Frame.Shaped _ _
    split <;> exact hrest
  | jumpTest test target =>
    refine replace₂_nextShaped h hflow fun a b rest x y f' _ _ hrest => ?_
    refine (operand_eq _).bind fun taken _ => ?_
    split <;> exact hrest
  | switch table count =>
    refine replace₁_nextShaped h hflow fun s rest v f' _ hrest => ?_
    exact (operand_eq _).bind fun n _ => hrest
  | binary kind =>
    refine replace₂_nextShaped h hflow fun a b rest x y f' ha hb hrest => ?_
    exact (operand_eq _).bind fun v hv => push_nextShaped hrest (binary_has ha hb hv)
  | neg =>
    refine replace₁_nextShaped h hflow fun s rest v f' hs hrest => ?_
    exact (operand_eq _).bind fun v hv => push_nextShaped hrest (neg_has hs hv)
  | complement =>
    refine replace₁_nextShaped h hflow fun s rest v f' _ hrest => ?_
    exact (operand_eq _).bind fun v hv => push_nextShaped hrest (complement_has hv)
  | convert conversion =>
    refine replace₁_nextShaped h hflow fun s rest v f' _ hrest => ?_
    exact (operand_eq _).bind fun v hv => push_nextShaped hrest (convert_has hv)
  | compare test =>
    refine replace₂_nextShaped h hflow fun a b rest x y f' _ _ hrest => ?_
    exact (operand_eq _).bind fun holds _ => push_nextShaped hrest (ofBool_has holds)
  | loadStatic slot =>
    cases hflow
    unfold perform
    dsimp only
    split
    · exact trivial
    · rename_i v hv
      exact push_nextShaped h (hkept.load_has hstatics hv)
  | storeStatic slot =>
    refine replace₁_nextShaped h hflow fun s rest v f' _ hrest => ?_
    dsimp only
    split
    · exact trivial
    · exact hrest
  | call callee => cases hflow
  | callBuiltin id =>
    obtain ⟨b, hb, rfl⟩ := Option.map_eq_some_iff.1 hflow
    exact (callBuiltin_shaped h hb).bind fun f' hf => hf
  | unsupported opcode => exact trivial

end

end Machine

/-! ## Typings -/

/-- Shapes of the operands at positions of the code, for each method. -/
abbrev StackTyping := List (List (Nat × List Shape))

namespace StackTyping

variable (T : StackTyping)

/-- The shapes at a position, the uppermost operand first. -/
def at? (k pc : Nat) : Option (List Shape) := (T[k]?.getD []).lookup pc

/-- The typing covers the method: it starts without operands. -/
def types (k : Nat) : Bool := T.at? k 0 == some []

/-- The shapes of what a method returns, if anything. -/
def results (image : LoadedImage) (k : Nat) : List Shape :=
  match image.methods[k]? with
  | none => []
  | some method =>
    if method.retTag = voidTag then []
    else [if T.types k then ((Tag.ofId? method.retTag).map Shape.ofTag).getD .any else .any]

/-- Operands of the shapes have those of the typing at the position. -/
def allows (k pc : Nat) (shapes : List Shape) : Bool :=
  (T.at? k pc).any fun expected => shapes.isEqv expected Shape.le

/-- What a typing asks of an instruction of a method. -/
def acceptsOp (image : LoadedImage) (builtins : BuiltinTable) (layout : LayoutTable)
    (e : CompiledMethod) (code : Array UInt8) (k next : Nat) (shapes : List Shape) : MachineOp → Bool
  | .ret => (shapes.take (T.results image k).length).isEqv (T.results image k) Shape.le
  | .call callee =>
    let taken := (image.methods[callee]?.map (·.args.length)).getD 0
    T.allows k next (T.results image callee ++ shapes.drop taken)
  | op =>
    (op.flow e layout builtins shapes).any fun shapes' =>
      (Machine.exits code next op).all fun pc => T.allows k pc shapes'

/-- What a typing asks of a position of a method. -/
def acceptsAt (image : LoadedImage) (builtins : BuiltinTable) (r : Registry) (layout : LayoutTable)
    (k pc : Nat) (shapes : List Shape) : Bool :=
  match image.methods[k]?, r.methods[k]? with
  | some method, some e =>
    match MachineOp.decode? method.code pc with
    | some (op, next) => T.acceptsOp image builtins layout e method.code k next shapes op
    | none => true
  | _, _ => true

/-- The typing is right at each of its positions. -/
def accepts (image : LoadedImage) (builtins : BuiltinTable) (r : Registry) (layout : LayoutTable) :
    Bool :=
  T.zipIdx.all fun (entries, k) => entries.all fun (pc, shapes) =>
    T.acceptsAt image builtins r layout k pc shapes

section
variable {T} {image : LoadedImage} {builtins : BuiltinTable} {r : Registry} {layout : LayoutTable}

theorem results_of_tag {method : LoadedMethod} (hloaded : image.methods[k]? = some method) {t : Tag}
    (htag : method.retTag = t.id) (htypes : T.types k = true) :
    T.results image k = [Shape.ofTag t] := by
  have hvoid : t.id ≠ voidTag := by cases t <;> decide
  unfold results
  simp [hloaded, htag, if_neg hvoid, htypes, Tag.ofId?_id, Option.map_some, Option.getD_some]

theorem acceptsAt_of_accepts (h : T.accepts image builtins r layout = true)
    (hat : T.at? k pc = some shapes) : T.acceptsAt image builtins r layout k pc shapes = true := by
  unfold at? at hat
  cases hentries : T[k]? with
  | none =>
    rw [hentries] at hat
    cases hat
  | some entries =>
    rw [hentries] at hat
    obtain ⟨before, after, rfl, -⟩ := lookup_eq_some_iff.1 hat
    have hmethod := all_eq_true.1 h (_, k) (mem_zipIdx_iff_getElem?.2 hentries)
    exact all_eq_true.1 hmethod (pc, shapes) (by simp)

/-- An instruction that goes on in its frame leaves operands that are expected there. -/
theorem flow_of_acceptsOp {e : CompiledMethod} {code : Array UInt8} {next : Nat} {op : MachineOp}
    (h : T.acceptsOp image builtins layout e code k next shapes op = true)
    (hpc : pc ∈ Machine.exits code next op) :
    ∃ shapes', op.flow e layout builtins shapes = some shapes' ∧ T.allows k pc shapes' = true := by
  have hflow : ((op.flow e layout builtins shapes).any fun shapes' =>
      (Machine.exits code next op).all fun pc => T.allows k pc shapes') = true := by
    cases op with
    | ret | call callee => simp [Machine.exits] at hpc
    | _ => exact h
  obtain ⟨shapes', hshapes, hall⟩ := Option.any_eq_true _ _ |>.1 hflow
  exact ⟨shapes', hshapes, all_eq_true.1 hall pc hpc⟩

end

end StackTyping

theorem Shape.forall₂_of_isEqv {expected : List Shape} {values : List Value}
    (hle : shapes.isEqv expected Shape.le = true) (h : List.Forall₂ Shape.Has shapes values) :
    List.Forall₂ Shape.Has expected values := by
  induction h generalizing expected with
  | nil =>
    cases expected with
    | nil => exact .nil
    | cons _ _ => cases hle
  | cons hhas _ ih =>
    cases expected with
    | nil => cases hle
    | cons s' expected =>
      rw [isEqv_cons_cons, Bool.and_eq_true] at hle
      exact .cons (hhas.of_le hle.1) (ih hle.2)

/-! ## States -/

namespace StackTyping

section
variable (T : StackTyping) (image : LoadedImage)

/-- The operands of the frame have the shapes of the typing. -/
def Types (f : Frame) : Prop :=
  T.types f.method = true → ∃ shapes, T.at? f.method f.pc = some shapes ∧ f.Shaped shapes

/-- The operands have the shapes of the typing when what the method returns is put on them. -/
def Awaits (f : Frame) (k : Nat) : Prop :=
  T.types f.method = true →
    ∃ shapes, f.Shaped shapes ∧ T.allows f.method f.pc (T.results image k ++ shapes) = true

/-- Each waiting frame awaits what the method that it called returns. -/
def AllAwait : (k : Nat) → List Caller → Prop
  | _, [] => True
  | k, caller :: callers => T.Awaits image caller.frame k ∧ AllAwait caller.frame.method callers

structure StateTypes (s : MachineState) : Prop where
  frame : T.Types s.frame
  callers : T.AllAwait image s.frame.method s.callers

/-- What a method returns has the shape of its result. -/
def Returns (k : Nat) (value : Option Value) : Prop :=
  List.Forall₂ Shape.Has (T.results image k) value.toList

end

section
variable {T : StackTyping} {image : LoadedImage}

theorem Types.of_allows (h : f.Shaped shapes) (hallows : T.allows f.method f.pc shapes = true) :
    T.Types f := by
  intro _
  obtain ⟨expected, hexpected, hle⟩ := Option.any_eq_true _ _ |>.1 hallows
  exact ⟨expected, hexpected, forall₂_of_isEqv hle h⟩

theorem Awaits.resume (h : T.Awaits image f k) (hvalue : T.Returns image k value)
    (hsame : f.Same f') (hstack : f'.stack.toList = f.stack.toList ++ value.toList) :
    T.Types f' := by
  intro htypes
  rw [hsame.method] at htypes
  obtain ⟨shapes, hshaped, hallows⟩ := h htypes
  have hshaped' : f'.Shaped (T.results image k ++ shapes) := by
    unfold Frame.Shaped
    have hreverse : value.toList.reverse = value.toList := by cases value <;> rfl
    rw [hstack, reverse_append, hreverse]
    exact rel_append hvalue hshaped
  rw [← hsame.method, ← hsame.pc] at hallows
  exact Types.of_allows hshaped' hallows (hsame.method ▸ htypes)

theorem Types.enter (T : StackTyping) (k : Nat) (method : LoadedMethod) (args : SlotArea) :
    T.Types (Frame.enter k method args) :=
  fun htypes => ⟨[], eq_of_beq htypes, .nil⟩

end

end StackTyping

namespace Machine

section
variable {m : Machine} {method : LoadedMethod} {place : CodeAddress} {statics : SlotArea}

/-- The uppermost operand has the shape of the result if the typing accepts the return. -/
theorem Gives.returns {image : LoadedImage} (hloaded : image.methods[k]? = some method)
    (h : Gives method f value) {T : StackTyping}
    (hshapes : T.types k = true → ∃ shapes, f.Shaped shapes ∧
      (shapes.take (T.results image k).length).isEqv (T.results image k) Shape.le = true) :
    T.Returns image k value := by
  unfold StackTyping.Returns
  unfold StackTyping.results at hshapes ⊢
  simp only [hloaded] at hshapes ⊢
  rcases h with ⟨hvoid, rfl⟩ | ⟨hvoid, v, hv, rfl⟩
  · rw [if_pos hvoid]
    exact .nil
  · rw [if_neg hvoid] at hshapes ⊢
    cases htypes : T.types k with
    | false => exact .cons trivial .nil
    | true =>
      obtain ⟨shapes, hshaped, hle⟩ := hshapes htypes
      simp only [htypes, if_true] at hle ⊢
      cases shapes with
      | nil => cases hle
      | cons s rest =>
        exact forall₂_of_isEqv hle (.cons (hshaped.uncons hv).1 .nil)

theorem call_shaped (h : f.Shaped shapes) {target : LoadedMethod}
    (htarget : m.image.methods[callee]? = some target)
    (hcall : m.perform method place f statics (.call callee) = .ok (.call f' callee args)) :
    f'.Shaped (shapes.drop target.args.length) := by
  unfold perform at hcall
  simp only [htarget] at hcall
  obtain ⟨e, hpop, hcall⟩ := except_bind_ok.1 hcall
  obtain ⟨args', -, hcall⟩ := except_bind_ok.1 hcall
  cases hcall
  have hshaped := f.popMany_shaped h place target.args.length
  rw [hpop] at hshaped
  exact hshaped

end

/-! ## Steps -/

section
variable {m : Machine} {c : BuildContext} {r : Registry} {t : TypeTables} {s : MachineState}
  {T : StackTyping} (hT : T.accepts m.image m.builtins r t.layout = true)
  (hs : T.StateTypes m.image s) {v : MethodView} (h : m.MethodAt c r t s.frame.method v)
  {op : MachineOp} {next : Nat}
include hT hs h

theorem position_accepted (hdecode : MachineOp.decode? v.method.code s.frame.pc = some (op, next))
    (htypes : T.types s.frame.method = true) :
    ∃ shapes, s.frame.Shaped shapes ∧
      T.acceptsOp m.image m.builtins t.layout v.entry v.method.code s.frame.method next shapes op =
        true := by
  obtain ⟨shapes, hat, hshaped⟩ := hs.frame htypes
  have haccepts := StackTyping.acceptsAt_of_accepts hT hat
  unfold StackTyping.acceptsAt at haccepts
  simp only [h.loaded, h.entry, hdecode] at haccepts
  exact ⟨shapes, hshaped, haccepts⟩

theorem returns_typed (hperformed : m.Performed s v.method op next (.ret value args)) :
    T.Returns m.image s.frame.method value := by
  obtain ⟨rfl, hgives⟩ := hperformed.gives
  exact hgives.returns h.loaded (position_accepted hT hs h hperformed.decoded)

theorem within_typed (hslots : m.RunsSlots c r t)
    (hintact : ∀ area, (v.entry.areaSlots area).Intact (s.frame.area area))
    (hstatics : t.layout.staticSlots.Intact s.statics) {statics : SlotArea}
    (hperformed : m.Performed s v.method op next (.next f statics)) : T.Types f := by
  obtain ⟨hmethod, hpc, -⟩ := hperformed.touches
  intro htypes
  obtain ⟨shapes, hshaped, haccepts⟩ :=
    position_accepted hT hs h hperformed.decoded (hmethod ▸ htypes)
  obtain ⟨shapes', hflow, hallows⟩ := StackTyping.flow_of_acceptsOp haccepts hpc
  have hflows : Ensures _ _ (m.perform v.method ⟨s.frame.method, s.frame.pc⟩
      { s.frame with pc := next } s.statics op) :=
    perform_flows h.tiled (fun area => by cases area <;> exact hintact _) hslots.tiled hstatics
      hshaped hflow
  rw [hperformed.result] at hflows
  exact StackTyping.Types.of_allows hflows (hmethod ▸ hallows) htypes

theorem call_awaits (hperformed : m.Performed s v.method op next (.call f callee args)) :
    T.Awaits m.image f callee := by
  obtain ⟨rfl, hsame, target, values, htarget, -⟩ := hperformed.touches
  have hmethod : f.method = s.frame.method := hsame.method
  have hpc : f.pc = next := hsame.pc
  intro htypes
  obtain ⟨shapes, hshaped, haccepts⟩ :=
    position_accepted hT hs h hperformed.decoded (hmethod ▸ htypes)
  have hshaped : Frame.Shaped { s.frame with pc := next } shapes := hshaped
  refine ⟨shapes.drop target.args.length, call_shaped hshaped htarget hperformed.result, ?_⟩
  rw [hmethod, hpc]
  unfold StackTyping.acceptsOp at haccepts
  simp only [htarget, Option.map_some, Option.getD_some] at haccepts
  exact haccepts

end

/-- **A step of the machine keeps to an accepted typing.** -/
theorem Moves.types {m : Machine} {c : BuildContext} {r : Registry} {t : TypeTables}
    (hslots : m.RunsSlots c r t) {index : Nat} {s s' : MachineState}
    (hfits : m.StateFits c r t index s) {T : StackTyping}
    (hT : T.accepts m.image m.builtins r t.layout = true) (hs : T.StateTypes m.image s)
    (hmoves : m.Moves s s') : T.StateTypes m.image s' := by
  obtain ⟨v, h, -, hintact⟩ := hfits.frame
  have same : ∀ {method : LoadedMethod}, m.image.methods[s.frame.method]? = some method →
      v.method = method := fun hmethod => Option.some.inj (h.loaded.symm.trans hmethod)
  cases hmoves with
  | @within _ _ _ f statics performed =>
    obtain rfl := same performed.loaded
    have hmethod : f.method = s.frame.method := performed.touches.1
    exact ⟨within_typed hT hs h hslots hintact hfits.statics performed, hmethod ▸ hs.callers⟩
  | @enter _ _ _ f callee args target performed known =>
    obtain rfl := same performed.loaded
    have hmethod : f.method = s.frame.method := performed.touches.2.1.method
    exact ⟨.enter T callee target args, call_awaits hT hs h performed, hmethod ▸ hs.callers⟩
  | @leave _ _ _ value args caller rest f performed waits hsame stack =>
    obtain rfl := same performed.loaded
    have hcallers := hs.callers
    rw [waits] at hcallers
    refine ⟨hcallers.1.resume (returns_typed hT hs h performed) hsame stack, ?_⟩
    rw [hsame.method]
    exact hcallers.2

end Machine

end DeviceCode
