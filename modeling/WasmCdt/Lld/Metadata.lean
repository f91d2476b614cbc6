import WasmCdt.Lib.Leb128
import WasmCdt.Base.Text

/-!
# Contract metadata in an object

`WebAssemblyAsmPrinter::EmitEndOfAsmFile`
(`wasm_llvm/lib/Target/WebAssembly/WebAssemblyAsmPrinter.cpp`) writes the attribute strings of a
module's functions into custom sections; `WasmObjectFile` (`wasm_llvm/lib/Object/WasmObjectFile.cpp`)
reads them. `Ctx.Ptr` is a position in the section's content, and what the memory holds behind
`Ctx.End` is part of the section, so that reading on is possible.
-/

namespace Lld

namespace Metadata

/-! ## The printer -/

/-- A function's name and attributes; a missing attribute is `none`. -/
structure Function where
  name : List UInt8
  wasmImport : Bool
  wasmAbi : Option (List UInt8)
  wasmAction : Option (List UInt8)
  wasmNotify : Option (List UInt8)
  deriving DecidableEq, Repr

/-- The functions in the module's order. -/
abbrev Module := List Function

/-- `EmitULEB128IntValue`. -/
def emitULEB128IntValue (value : Nat) : List UInt8 := Leb128.encodeU value

def emitString (s : List UInt8) : List UInt8 := emitULEB128IntValue s.length ++ s

/-- A section with the strings of the functions that have the attribute, if any has it. -/
def emitSection (sectionName : Text) (attr : Function → Option (List UInt8)) (M : Module) :
    List (Text × List UInt8) :=
  if M.any fun F => (attr F).isSome then
    [(sectionName, M.flatMap fun F => ((attr F).map emitString).getD [])]
  else []

def Function.importName (F : Function) : Option (List UInt8) :=
  if F.wasmImport then some F.name else none

def importsSection : Text := ".imports".toList
def abiSection : Text := ".wasm_abi".toList
def actionsSection : Text := ".wasm_actions".toList
def notifySection : Text := ".wasm_notify".toList

/-- The metadata sections of `EmitEndOfAsmFile`, by name. -/
def emitEndOfAsmFile (M : Module) : List (Text × List UInt8) :=
  emitSection importsSection Function.importName M ++ emitSection abiSection Function.wasmAbi M ++
    emitSection actionsSection Function.wasmAction M ++ emitSection notifySection Function.wasmNotify M

/-! ## The reader -/

/-- A custom section, and the memory behind its content. -/
structure WasmSection where
  name : Text
  content : List UInt8
  behind : Nat → UInt8

inductive Error
  /-- `report_fatal_error`. -/
  | fatal (msg : String)
  /-- `object_error::parse_failed`. -/
  | parseFailed (msg : String)
  deriving DecidableEq, Repr

section
variable (sec : WasmSection)

/-- `*p`. -/
def byteAt (p : Nat) : UInt8 := sec.content.getD p (sec.behind p)

/-- `Ctx.End`. -/
def ctxEnd : Nat := sec.content.length

/-- The loop of `decodeULEB128`: the value, and the position behind it. -/
def decodeULEB128 (p : Nat) (value : BitVec 64) (shift : Nat) : Except Error (BitVec 64 × Nat) :=
  if p = ctxEnd sec then .error (.fatal "malformed uleb128, extends past end")
  else
    let slice := (byteAt sec p &&& 0x7f).toBitVec.setWidth 64
    if hbig : shift ≥ 64 ∨ slice <<< shift >>> shift ≠ slice then
      .error (.fatal "uleb128 too big for uint64")
    else
      let value := value + slice <<< shift
      if byteAt sec p ≥ 128 then decodeULEB128 (p + 1) value (shift + 7) else .ok (value, p + 1)
termination_by 64 - shift
decreasing_by omega

def readULEB128 (ptr : Nat) : Except Error (BitVec 64 × Nat) := decodeULEB128 sec ptr 0 0

/-- The length is narrowed to a `uint32_t`. -/
def readString (ptr : Nat) : Except Error (List UInt8 × Nat) := do
  let (size, ptr) ← readULEB128 sec ptr
  let stringLen : BitVec 32 := size.setWidth 32
  if ptr + stringLen.toNat > ctxEnd sec then .error (.fatal "EOF while reading string")
  else pure ((List.range stringLen.toNat).map fun i => byteAt sec (ptr + i), ptr + stringLen.toNat)

theorem decodeULEB128_lt {sec : WasmSection} {p shift k : Nat} {value v : BitVec 64}
    (h : decodeULEB128 sec p value shift = .ok (v, k)) : p < k := by
  fun_induction decodeULEB128 sec p value shift with
  | case1 => cases h
  | case2 => cases h
  | case3 _ _ _ _ _ _ _ _ ih => exact (Nat.lt_succ_self _).trans (ih h)
  | case4 =>
    obtain ⟨-, rfl⟩ := Prod.mk.inj (Except.ok.inj h)
    exact Nat.lt_succ_self _

theorem readString_lt {sec : WasmSection} {ptr k : Nat} {s : List UInt8}
    (h : readString sec ptr = .ok (s, k)) : ptr < k := by
  unfold readString at h
  cases hsize : readULEB128 sec ptr with
  | error e =>
    rw [hsize] at h
    cases h
  | ok pair =>
    rw [hsize] at h
    have hlt := decodeULEB128_lt hsize
    have hok : (if pair.2 + (pair.1.setWidth 32).toNat > ctxEnd sec then
        Except.error (Error.fatal "EOF while reading string")
      else .ok ((List.range (pair.1.setWidth 32).toNat).map fun i => byteAt sec (pair.2 + i),
        pair.2 + (pair.1.setWidth 32).toNat)) = .ok (s, k) := h
    split at hok
    · cases hok
    · obtain ⟨-, rfl⟩ := Prod.mk.inj (Except.ok.inj hok)
      omega

/-- `while (Ctx.Ptr < Ctx.End)` of the sections that hold lists: the strings, and `Ctx.Ptr`. -/
def readStrings (ptr : Nat) (strings : List (List UInt8)) : Except Error (List (List UInt8) × Nat) :=
  if ptr < ctxEnd sec then
    match _hread : readString sec ptr with
    | .error e => .error e
    | .ok (s, k) => readStrings k (strings ++ [s])
  else .ok (strings, ptr)
termination_by ctxEnd sec - ptr
decreasing_by
  have hlt := readString_lt ‹_›
  omega

end

/-- What the reader keeps of the metadata. -/
structure WasmObject where
  eosioAbi : List UInt8
  allowedImports : List (List UInt8)
  actions : List (List UInt8)
  notify : List (List UInt8)
  deriving DecidableEq, Repr

def parseEosioABISection (sec : WasmSection) (obj : WasmObject) : Except Error WasmObject := do
  let (sr, ptr) ← readString sec 0
  if ptr ≠ ctxEnd sec then .error (.parseFailed "eosio abi section ended prematurely")
  else pure { obj with eosioAbi := sr }

/-- A section with a list of strings, pushed behind those there are; `what` begins the message. -/
def parseList (what : String) (push : List (List UInt8) → WasmObject) (strings : List (List UInt8))
    (sec : WasmSection) : Except Error WasmObject := do
  let (strings, ptr) ← readStrings sec 0 strings
  if ptr ≠ ctxEnd sec then .error (.parseFailed (what ++ " section ended prematurely"))
  else pure (push strings)

def parseAllowedSection (sec : WasmSection) (obj : WasmObject) : Except Error WasmObject :=
  parseList "allowed import" ({ obj with allowedImports := · }) obj.allowedImports sec

def parseActionsSection (sec : WasmSection) (obj : WasmObject) : Except Error WasmObject :=
  parseList "actions" ({ obj with actions := · }) obj.actions sec

def parseNotifySection (sec : WasmSection) (obj : WasmObject) : Except Error WasmObject :=
  parseList "notify" ({ obj with notify := · }) obj.notify sec

/-- The sections of other names do not reach the metadata. -/
def parseCustomSection (sec : WasmSection) (obj : WasmObject) : Except Error WasmObject :=
  if sec.name = importsSection then parseAllowedSection sec obj
  else if sec.name = abiSection then parseEosioABISection sec obj
  else if sec.name = actionsSection then parseActionsSection sec obj
  else if sec.name = notifySection then parseNotifySection sec obj
  else .ok obj

/-- The loop of the constructor over the sections. -/
def parseSections : List WasmSection → WasmObject → Except Error WasmObject
  | [], obj => .ok obj
  | sec :: secs, obj => do parseSections secs (← parseCustomSection sec obj)

/-- The section that the reader finds, with what the memory holds behind it. -/
def toSection (behind : Text → Nat → UInt8) (s : Text × List UInt8) : WasmSection :=
  ⟨s.1, s.2, behind s.1⟩

/-- The object without metadata. -/
def WasmObject.empty : WasmObject := ⟨[], [], [], []⟩

/-- A module's metadata, written and read. -/
def transport (M : Module) (behind : Text → Nat → UInt8) : Except Error WasmObject :=
  parseSections ((emitEndOfAsmFile M).map (toSection behind)) WasmObject.empty

end Metadata

end Lld
