import WasmCdt.Base.Text
import Mathlib.Data.List.DropRight
import WasmCdt.Lib.SInt

/-!
# Contract code

What `libraries/wasmlib/core` runs in: a computation ends with a value, with a failed `wasm::check`
(the transaction aborts, its effects are dropped), or in an operation that C++ leaves undefined.
-/

namespace Wasmlib

inductive Stop
  /-- `wasm::check` failed. -/
  | abort (msg : String)
  /-- Signed overflow, or a division without a quotient. -/
  | fault
  deriving DecidableEq, Repr

abbrev Exec := Except Stop

/-- `wasm::check` (`core/check.hpp`). -/
def check (pred : Bool) (msg : String) : Exec Unit :=
  if pred then pure () else .error (.abort msg)

/-- The result of an arithmetic operation that has to be defined. -/
def defined {α : Type} : Option α → Exec α
  | some a => pure a
  | none => .error .fault

/-- What `ltrim` and `rtrim` (`core/strings.hpp`) take away. -/
def isPadding (c : Char) : Bool := c == ' ' || c == '\t'

def ltrim (str : Text) : Text := str.dropWhile isPadding

def rtrim (str : Text) : Text := str.rdropWhile isPadding

/-- `trim`: what `ltrim(rtrim(str))` returns is not used. -/
def trim (s : Text) : Text :=
  let str := s
  let _ := ltrim (rtrim str)
  str

@[simp] theorem defined_some {α : Type} (a : α) : defined (some a) = .ok a := rfl

theorem defined_eq_ok {α : Type} {x : Option α} {a : α} (h : defined x = .ok a) : x = some a := by
  cases x with
  | none => cases h
  | some b => exact congrArg some (Except.ok.inj h)

theorem check_bind {α : Type} (p : Bool) (msg : String) (f : Unit → Exec α) :
    (check p msg >>= f) = if p then f () else .error (.abort msg) := by
  cases p <;> rfl

@[simp] theorem ok_bind {α β : Type} (a : α) (f : α → Exec β) :
    ((Except.ok a : Exec α) >>= f) = f a := rfl

@[simp] theorem error_bind {α β : Type} (e : Stop) (f : α → Exec β) :
    ((Except.error e : Exec α) >>= f) = .error e := rfl

@[simp] theorem pure_eq_ok {α : Type} (a : α) : (pure a : Exec α) = .ok a := rfl

@[simp] theorem bind_ok {α : Type} (x : Exec α) : (x >>= fun a => .ok a) = x := by
  cases x <;> rfl

theorem bind_eq_ok {α β : Type} {x : Exec α} {f : α → Exec β} {b : β} (h : x >>= f = .ok b) :
    ∃ a, x = .ok a ∧ f a = .ok b := by
  cases x with
  | error e => cases h
  | ok a => exact ⟨a, rfl, h⟩

end Wasmlib
