import DeviceCode.Link
import DeviceCode.Proofs.Outcome

/-!
# The errors of a build

A build follows references until it finds nothing new. `CompileError.givesUp` tells the errors with
which it stops before that, for want of an end or by the bound on the link, from those that are about
the program. `Decides E x`: if `x` fails, it is with an error of `E`. The checks and look-ups that read
the program or a table, and follow nothing, fail with ordinary errors only, so they decide for every
set that holds these (`CompileError.HoldsOrdinary`).
-/

namespace DeviceCode

open CompileError

namespace CompileError

/-- The search was given up before it was through. -/
def givesUp : CompileError → Bool
  | unboundedInstantiation => true
  | limitExceeded what _ => what == "link iterations"
  | _ => false

/-- The error is about the program. -/
abbrev Decided (e : CompileError) : Prop := e.givesUp = false

/-- The error is not about a method that must run as native code. -/
abbrev NotNative (e : CompileError) : Prop := e.kind ≠ .nativeCodeRequired

/-- The error is neither of a search that was given up nor about a method that must run as native
code. -/
def isOrdinary (e : CompileError) : Bool := !e.givesUp && e.kind != .nativeCodeRequired

/-- The set holds all ordinary errors. -/
class HoldsOrdinary (E : CompileError → Prop) : Prop where
  ordinary : ∀ {e}, e.isOrdinary = true → E e

variable {e : CompileError} {α : Type}

theorem ordinary {E : CompileError → Prop} [h : HoldsOrdinary E]
    (he : e.isOrdinary = true) : E e := h.ordinary he

instance holdsOrdinary_decided : HoldsOrdinary Decided where
  ordinary he := by simpa using (Bool.and_eq_true_iff.1 he).1

instance holdsOrdinary_notNative : HoldsOrdinary NotNative where
  ordinary he := by simpa using (Bool.and_eq_true_iff.1 he).2

instance holdsOrdinary_true : HoldsOrdinary fun _ => True where
  ordinary _ := trivial

end CompileError

/-- If the computation fails, it is with an error of the set. -/
def Decides (E : CompileError → Prop) {α : Type} (x : Except CompileError α) : Prop :=
  ∀ e, x = .error e → E e

/-! ## Computations with exceptions -/

variable {E : CompileError → Prop}

section
variable {α β : Type} {f : α → Except CompileError β} {x : Except CompileError α}

theorem decides_ok (a : α) : Decides E (.ok a) := fun e h => by cases h

theorem decides_pure (a : α) : Decides E (pure a) := decides_ok a

theorem decides_error (he : E e) :
    Decides E (.error e : Except CompileError α) := fun e' h => by
  cases h
  exact he

theorem Decides.bind_of (hx : Decides E x)
    (hf : ∀ a, x = .ok a → Decides E (f a)) : Decides E (x >>= f) := by
  cases x with
  | ok a => exact hf a rfl
  | error e => exact decides_error (hx e rfl)

theorem Decides.bind (hx : Decides E x)
    (hf : ∀ a, Decides E (f a)) : Decides E (x >>= f) := hx.bind_of fun a _ => hf a

theorem Decides.map (hx : Decides E x) (f : α → β) :
    Decides E (x.map f) := by
  cases x with
  | ok a => exact decides_ok _
  | error e => exact decides_error (hx e rfl)

theorem decides_mapM (hf : ∀ a, Decides E (f a)) :
    ∀ xs : List α, Decides E (xs.mapM f)
  | [] => by
    exact decides_pure _
  | x :: xs => by
    rw [List.mapM_cons]
    exact (hf x).bind fun _ => (decides_mapM hf xs).bind fun _ => decides_pure _

theorem decides_foldlM {f : β → α → Except CompileError β} (hf : ∀ b a, Decides E (f b a))
    (xs : List α) (b : β) : Decides E (xs.foldlM f b) := by
  intro e h
  obtain ⟨_, x, _, b', -, -, hx⟩ := except_foldlM_error h
  exact hf b' x e hx

theorem decides_filterMapM {f : α → Except CompileError (Option β)} (hf : ∀ a, Decides E (f a))
    (xs : List α) : Decides E (xs.filterMapM f) := by
  have loop : ∀ (xs : List α) (acc : List β), Decides E (List.filterMapM.loop f xs acc) := by
    intro xs
    induction xs with
    | nil => exact fun acc => decides_pure _
    | cons x xs ih =>
      intro acc
      refine (hf x).bind fun found => ?_
      cases found with
      | none => exact ih acc
      | some b => exact ih (b :: acc)
  exact loop xs []

end

/-! ## Reading the program -/

variable [CompileError.HoldsOrdinary E]

theorem decides_ordinary (he : e.isOrdinary = true) :
    Decides E (.error e : Except CompileError α) := decides_error (ordinary he)

theorem decides_resolveMethod (p : Program) (m : MethodRef) : Decides E (p.resolveMethod m) := by
  unfold Program.resolveMethod
  split
  · exact decides_ok _
  · exact decides_ordinary rfl

theorem decides_resolveField (p : Program) (f : FieldRef) : Decides E (p.resolveField f) := by
  unfold Program.resolveField
  split
  · exact decides_ok _
  · exact decides_ordinary rfl

theorem decides_storage (p : Program) (t : TypeRef) : Decides E (Storage.ofType p t) := by
  unfold Storage.ofType
  repeat' split
  all_goals first
    | exact decides_ok _
    | exact decides_ordinary rfl

theorem decides_result (p : Program) (t : TypeRef) : Decides E (Storage.ofResult p t) := by
  unfold Storage.ofResult
  split
  · exact decides_ok _
  · exact (decides_storage p t).map _

theorem decides_descriptorKey (p : Program) : ∀ t : TypeRef, Decides E (DescriptorKey.ofType p t)
  | .byRef t | .pointer t => decides_descriptorKey p t
  | .array t => (decides_descriptorKey p t).map _
  | .string | .object | .param _ | .primitive _ => decides_ok _
  | .void => decides_ordinary rfl
  | .named id args => by
    unfold DescriptorKey.ofType
    split <;> exact decides_ok _

theorem decides_push (l : SlotList) (s : Storage) : Decides E (l.push s) := by
  unfold SlotList.push
  repeat' split
  all_goals first
    | exact decides_ok _
    | exact decides_ordinary rfl

theorem VirtualSlot.decides_implementation (p : Program) (slot : VirtualSlot) (type : TypeRef) :
    Decides E (slot.implementation p type) := by
  unfold VirtualSlot.implementation
  repeat' split
  all_goals first
    | exact decides_ok _
    | exact decides_ordinary rfl

theorem VirtualSlot.decides_candidates (p : Program) (slot : VirtualSlot) :
    Decides E (slot.candidates p) := by
  refine decides_filterMapM (fun id => ?_) _
  split
  · exact decides_pure _
  · exact (slot.decides_implementation p _).bind fun _ => decides_pure _

/-! ## Instructions and bodies -/

namespace Lowering

theorem decides_elementOp (l : Lowering) (opcode : Opcode) (kind : ElementKind) :
    Decides E (l.elementOp opcode kind) := by
  unfold elementOp
  split
  · exact decides_ok _
  · exact decides_ok _
  · refine (decides_storage _ _).bind fun storage => ?_
    split <;> exact decides_pure _

theorem decides_lowerPlain (l : Lowering) (index : Nat) (op : Op) :
    Decides E (l.lowerPlain index op) := by
  have slot : ∀ (area : Area) (n : UInt16), Decides E (l.slot area n) := by
    intro area n
    unfold slot
    dsimp only
    split
    · exact decides_ok _
    · exact decides_ordinary rfl
  have text : ∀ s, Decides E (textPieces s) := by
    intro s
    unfold textPieces
    dsimp only
    split
    · exact decides_ok _
    · exact decides_ordinary rfl
  have switch : ∀ targets, Decides E (switchPieces targets) := by
    intro targets
    unfold switchPieces
    split
    · exact decides_ok _
    · exact decides_ordinary rfl
  have indirect : ∀ params returns, Decides E (indirectPieces params returns) := by
    intro params returns
    unfold indirectPieces
    split
    · exact decides_ok _
    · exact decides_ordinary rfl
  cases op with
  | slot area access n => exact (slot area n).bind fun _ => decides_pure _
  | text s => exact (text s).bind fun _ => decides_pure _
  | switch targets => exact (switch targets).bind fun _ => decides_pure _
  | callIndirect params returns => exact (indirect params returns).bind fun _ => decides_pure _
  | loadElement kind => exact l.decides_elementOp .ldelem kind
  | storeElement kind => exact l.decides_elementOp .stelem kind
  | _ => first
    | exact decides_ok _
    | exact decides_ordinary rfl

theorem decides_assemble (l : Lowering) (body : LoweredBody) : Decides E (l.assemble body) := by
  have branch : ∀ offsets index target, Decides E (l.branchOffset offsets index target) := by
    intro offsets index target
    unfold branchOffset
    repeat' split
    all_goals first
      | exact decides_ok _
      | exact decides_ordinary rfl
  have encode : ∀ offsets index piece, Decides E (Piece.encode (l.branchOffset offsets index) piece) := by
    intro offsets index piece
    unfold Piece.encode
    split
    all_goals first
      | exact decides_ok _
      | exact (branch _ _ _).map _
  refine (decides_mapM (fun item => ?_) _).bind fun _ => decides_pure _
  exact (decides_mapM (encode _ _) _).bind fun _ => decides_pure _

end Lowering

namespace Registry

theorem decides_checkSupported (name : String) (code : Array Instruction) :
    Decides E (checkSupported name code) := by
  unfold checkSupported
  split
  · exact decides_ok _
  · exact decides_ordinary rfl

theorem decides_profile (name : String) (code : Array Instruction)
    (x : Except ProfileError StackProfile) :
    Decides E (x.mapError (CompileError.ofProfile name code)) := by
  cases x with
  | ok profile => exact decides_ok _
  | error e => cases e <;> exact decides_ordinary rfl

/-! ## Tables and operands -/

theorem decides_checkNative (r : Registry) : Decides CompileError.Decided r.checkNative := by
  unfold checkNative
  split
  · exact decides_ok _
  · exact decides_error rfl

theorem decides_checkStructs (layout : LayoutTable) (methods : List CompiledMethod) :
    Decides E (checkStructs layout methods) := by
  unfold checkStructs
  dsimp only
  split
  · exact decides_ok _
  · exact decides_ordinary rfl

theorem decides_checkSite (f : Fixup) (r : Registry) : Decides E (checkSite f r) := by
  unfold checkSite
  repeat' split
  all_goals first
    | exact decides_ok _
    | exact decides_ordinary rfl

theorem decides_known (what name : String) (x : Option α) : Decides E (known what name x) := by
  cases x with
  | some a => exact decides_ok _
  | none => exact decides_ordinary rfl

theorem decides_operandWord {what : String} (hwhat : what ≠ "link iterations") (index : Nat) :
    Decides E (operandWord what index) := by
  unfold operandWord
  split
  · exact decides_ok _
  · exact decides_ordinary
      (by simpa [isOrdinary, givesUp, kind] using hwhat)

end Registry

theorem LayoutTable.decides_addStatic (p : Program) (t : LayoutTable) (f : FieldUse) :
    Decides E (addStatic p t f) := by
  unfold addStatic
  split
  · exact decides_pure _
  · dsimp only
    split
    · exact decides_ordinary rfl
    · refine (decides_storage p f.type).bind fun storage => ?_
      split
      · exact decides_ordinary rfl
      · exact decides_pure _

end DeviceCode
