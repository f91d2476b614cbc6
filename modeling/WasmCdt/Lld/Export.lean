import WasmCdt.Lld.Dispatch

/-!
# The export section

`--only-export` (`LinkerDriver::link` in `wasm_llvm/tools/lld/wasm/Driver.cpp`), `should_export`
(`Config.h`) and `Writer::createExportSection` (`Writer.cpp`). The driver copies a name without its
NUL, and `memcmp` compares as many characters as the exported name has: what the memory holds behind
the one copy and the other is a parameter.
-/

namespace Lld

open Cdt

structure WasmExport where
  name : Text
  kind : BitVec 8
  index : BitVec 32
  deriving DecidableEq

def WASM_EXTERNAL_FUNCTION : BitVec 8 := 0
def WASM_EXTERNAL_TABLE : BitVec 8 := 1
def WASM_EXTERNAL_MEMORY : BitVec 8 := 2
def WASM_EXTERNAL_GLOBAL : BitVec 8 := 3

/-! ## The option -/

/-- An argument of `--only-export`, and what the memory holds behind the copy of its name up to the
next NUL. -/
structure OnlyExport where
  value : Text
  behind : Text
  deriving DecidableEq

def getKind (str : Text) : BitVec 8 :=
  if str = "function".toList then 0
  else if str = "table".toList then 1
  else if str = "memory".toList then 2
  else 3

def getFirst (exp : Text) : Text := beforeColon exp

def getSecond (exp : Text) : Text := afterColon exp

/-- One round of the loop over the arguments. -/
def addExport (exports : List WasmExport) (arg : OnlyExport) : List WasmExport :=
  let name := getFirst arg.value
  if name ≠ [] then
    let type := getSecond arg.value
    exports ++ [⟨name ++ arg.behind, getKind type, 0⟩]
  else exports

/-- `Config->exports`. -/
def configExports (args : List OnlyExport) : List WasmExport := args.foldl addExport []

/-! ## The filter -/

/-- `c_str()` of a text: behind it a NUL and then the rest of the memory. -/
def cStr (past : Nat → Char) (s : Text) (i : Nat) : Char := (s ++ ['\x00']).getD i (past i)

/-- `memcmp(a, b, n) == 0`. -/
def memcmpEq (a b : Nat → Char) (n : Nat) : Bool := (List.range n).all fun i => a i == b i

section
-- what lies behind the two copies that one comparison makes
variable (past : WasmExport → WasmExport → Nat → Char)

def shouldExport (exports : List WasmExport) (ex : WasmExport) : Bool :=
  exports.any fun x =>
    (memcmpEq (cStr (past x ex) x.name) (cStr (past ex x) ex.name) ex.name.length ||
      cStr (past x ex) x.name 0 == '*') && x.kind == ex.kind

/-- `createExportSection`: the exports that are written; no section without candidates. -/
def createExportSection (config : List WasmExport) (candidates : List WasmExport) :
    Option (List WasmExport) :=
  if candidates.length = 0 then none else some (candidates.filter (shouldExport past config))

end

end Lld
