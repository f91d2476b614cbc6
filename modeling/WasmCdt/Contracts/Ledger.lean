import WasmCdt.Contracts.Token
import WasmCdt.Core.Proof.AssetArith
import Mathlib.Data.Finsupp.Order
import Mathlib.Data.Finsupp.Weight

/-!
# What the token contract is for

A ledger: for every symbol code at most one currency, which is held by accounts. The supply of a currency
is no number of its own; it is what the accounts hold together, and never more than the maximum. An
action of the contract is an operation on the ledger, or refused.
-/

namespace Wasmlib

/-- What is taken from one of the summands is taken from the sum. -/
theorem degree_sub_single {ι : Type} {f : ι →₀ Nat} {i : ι} {q : Nat} (h : q ≤ f i) :
    (f - Finsupp.single i q).degree + q = f.degree := by
  have hsplit : f - Finsupp.single i q + Finsupp.single i q = f :=
    tsub_add_cancel_of_le (Finsupp.single_le_iff.2 h)
  calc (f - Finsupp.single i q).degree + q
      = (f - Finsupp.single i q + Finsupp.single i q).degree := by rw [map_add, Finsupp.degree_single]
    _ = f.degree := by rw [hsplit]

/-! ## Currencies -/

/-- A currency and who holds how much of it. -/
structure Currency where
  symbol : Symbol
  issuer : Regid
  maxSupply : Nat
  /-- Who has an account. -/
  opened : Finset Regid
  held : Regid →₀ Nat
  symbol_valid : symbol.isValid = true
  maxSupply_le : (maxSupply : Int) ≤ maxAmount
  held_opened : held.support ⊆ opened
  held_le : held.degree ≤ maxSupply

noncomputable section

namespace Currency

variable (x : Currency)

def supply : Nat := x.held.degree

/-- A currency that nobody holds. -/
def new (symbol : Symbol) (issuer : Regid) (maxSupply : Nat) (hvalid : symbol.isValid = true)
    (hmax : (maxSupply : Int) ≤ maxAmount) : Currency where
  symbol := symbol
  issuer := issuer
  maxSupply := maxSupply
  opened := ∅
  held := 0
  symbol_valid := hvalid
  maxSupply_le := hmax
  held_opened := by simp
  held_le := by simp

theorem support_add_subset {opened : Finset Regid} {f : Regid →₀ Nat} (hf : f.support ⊆ opened)
    (o : Regid) (q : Nat) : (f + Finsupp.single o q).support ⊆ insert o opened := by
  refine Finsupp.support_add.trans (Finset.union_subset (hf.trans (Finset.subset_insert _ _)) ?_)
  exact Finsupp.support_single_subset.trans (Finset.singleton_subset_iff.2 (Finset.mem_insert_self _ _))

/-- `q` more, to the issuer. -/
def issue (q : Nat) (h : x.supply + q ≤ x.maxSupply) : Currency where
  __ := x
  opened := insert x.issuer x.opened
  held := x.held + Finsupp.single x.issuer q
  held_opened := support_add_subset x.held_opened _ _
  held_le := by
    rw [map_add, Finsupp.degree_single]
    exact h

/-- `q` less of what the issuer holds. -/
def retire (q : Nat) : Currency where
  __ := x
  held := x.held - Finsupp.single x.issuer q
  held_opened := (Finsupp.support_mono tsub_le_self).trans x.held_opened
  held_le := (Finsupp.degree_mono tsub_le_self).trans x.held_le

/-- `q` from one account to another. -/
def transfer (source target : Regid) (q : Nat) (h : q ≤ x.held source) : Currency where
  __ := x
  opened := insert target x.opened
  held := x.held - Finsupp.single source q + Finsupp.single target q
  held_opened :=
    support_add_subset ((Finsupp.support_mono tsub_le_self).trans x.held_opened) _ _
  held_le := by
    rw [map_add, Finsupp.degree_single, degree_sub_single h]
    exact x.held_le

/-- An account, if there is none yet. -/
def openAccount (owner : Regid) : Currency where
  __ := x
  opened := insert owner x.opened
  held_opened := x.held_opened.trans (Finset.subset_insert _ _)

/-- No account any more, of somebody who holds nothing. -/
def closeAccount (owner : Regid) (h : x.held owner = 0) : Currency where
  __ := x
  opened := x.opened.erase owner
  held_opened := Finset.subset_erase.2
    ⟨x.held_opened, fun hmem => Finsupp.mem_support_iff.1 hmem h⟩

end Currency

/-! ## Ledgers -/

/-- The currencies, by the code of their symbol. -/
structure Ledger where
  currency : SymbolCode → Option Currency
  code_eq : ∀ c x, currency c = some x → x.symbol.code = c

namespace Ledger

variable (L : Ledger)

def empty : Ledger := ⟨fun _ => none, nofun⟩

/-- The currency with the symbol of `x` is `x`. -/
def update (x : Currency) : Ledger where
  currency := Function.update L.currency x.symbol.code (some x)
  code_eq c y h := by
    by_cases hc : c = x.symbol.code
    · subst hc
      rw [Function.update_self, Option.some.injEq] at h
      rw [h]
    · rw [Function.update_of_ne hc] at h
      exact L.code_eq c y h

@[simp] theorem update_self (x : Currency) : (L.update x).currency x.symbol.code = some x :=
  Function.update_self _ _ _

theorem update_of_ne (x : Currency) {c : SymbolCode} (h : c ≠ x.symbol.code) :
    (L.update x).currency c = L.currency c := Function.update_of_ne h _ _

end Ledger

/-! ## Actions -/

namespace Token

/-- A call of an action. -/
inductive Action
  | create (issuer : Regid) (maximumSupply : Asset)
  | issue (toAccount : Regid) (quantity : Asset) (memo : List UInt8)
  | retire (quantity : Asset) (memo : List UInt8)
  | transfer (fromAccount toAccount : Regid) (quantity : Asset) (memo : List UInt8)
  | openAccount (owner : Regid) (symbol : Symbol) (payer : Regid)
  | closeAccount (owner : Regid) (symbol : Symbol)
  | balanceOf (owner : Regid) (symbol : Symbol)

/-- The contract's method. -/
def Action.exec (chain : Chain) (self : Regid) : Action → World → Exec World
  | .create issuer maximumSupply => Token.create chain self issuer maximumSupply
  | .issue toAccount quantity memo => Token.issue chain self toAccount quantity memo
  | .retire quantity memo => Token.retire chain quantity memo
  | .transfer fromAccount toAccount quantity memo => Token.transfer chain fromAccount toAccount quantity memo
  | .openAccount owner symbol payer => Token.openAccount chain owner symbol payer
  | .closeAccount owner symbol => Token.closeAccount chain owner symbol
  | .balanceOf owner symbol => fun w => do
    let _ ← Token.balanceOf owner symbol w
    pure w

/-- A positive quantity, with a memo that is not too long. -/
structure Payable (quantity : Asset) (memo : List UInt8) : Prop where
  valid : quantity.isValid = true
  positive : 0 < quantity.amount.val
  memo_le : memo.length ≤ 256

/-- The number of units. -/
def units (quantity : Asset) : Nat := quantity.amount.val.toNat

theorem units_eq {quantity : Asset} (h : 0 < quantity.amount.val) :
    (units quantity : Int) = quantity.amount.val := Int.toNat_of_nonneg h.le

theorem symbol_valid {quantity : Asset} (h : quantity.isValid = true) : quantity.symbol.isValid = true :=
  (Bool.and_eq_true_iff.1 h).2

theorem units_le {quantity : Asset} (h : quantity.isValid = true) : (units quantity : Int) ≤ maxAmount := by
  have hrange : |quantity.amount.val| ≤ maxAmount := isAmountWithinRange_iff.1 (Bool.and_eq_true_iff.1 h).1
  rw [units, Int.toNat_eq_max]
  exact max_le (le_of_abs_le hrange) (by decide)

end Token

open Token

namespace Ledger

open Classical

variable (L : Ledger) (chain : Chain) (self : Regid)

def create (issuer : Regid) (maximumSupply : Asset) : Option Ledger :=
  if h : chain.hasAuth issuer ∧ issuer = chain.getMaintainer self ∧ maximumSupply.isValid ∧
      0 < maximumSupply.amount.val ∧ L.currency maximumSupply.symbol.code = none then
    some (L.update (.new maximumSupply.symbol issuer (units maximumSupply) (symbol_valid h.2.2.1)
      (units_le h.2.2.1)))
  else none

def issue (quantity : Asset) (memo : List UInt8) : Option Ledger :=
  (L.currency quantity.symbol.code).bind fun x =>
    if h : chain.hasAuth x.issuer ∧ Payable quantity memo ∧ quantity.symbol = x.symbol ∧
        x.supply + units quantity ≤ x.maxSupply then
      some (L.update (x.issue (units quantity) h.2.2.2))
    else none

def retire (quantity : Asset) (memo : List UInt8) : Option Ledger :=
  (L.currency quantity.symbol.code).bind fun x =>
    if _h : chain.hasAuth x.issuer ∧ Payable quantity memo ∧ quantity.symbol = x.symbol ∧
        units quantity ≤ x.held x.issuer then
      some (L.update (x.retire (units quantity)))
    else none

def transfer (source target : Regid) (quantity : Asset) (memo : List UInt8) : Option Ledger :=
  (L.currency quantity.symbol.code).bind fun x =>
    if h : source ≠ target ∧ chain.hasAuth source ∧ chain.isAccount target ∧ Payable quantity memo ∧
        quantity.symbol = x.symbol ∧ units quantity ≤ x.held source then
      some (L.update (x.transfer source target (units quantity) h.2.2.2.2.2))
    else none

def openAccount (owner : Regid) (symbol : Symbol) (payer : Regid) : Option Ledger :=
  (L.currency symbol.code).bind fun x =>
    if _h : chain.hasAuth payer ∧ x.symbol = symbol then some (L.update (x.openAccount owner)) else none

/-- The precision of the symbol is not looked at. -/
def closeAccount (owner : Regid) (symbol : Symbol) : Option Ledger :=
  (L.currency symbol.code).bind fun x =>
    if h : chain.hasAuth owner ∧ owner ∈ x.opened ∧ x.held owner = 0 then
      some (L.update (x.closeAccount owner h.2.2))
    else none

def balanceOf (owner : Regid) (symbol : Symbol) : Option Nat :=
  (L.currency symbol.code).bind fun x =>
    if symbol = x.symbol ∧ owner ∈ x.opened then some (x.held owner) else none

/-- What an action makes of the ledger; `none` where it is refused. -/
def act : Token.Action → Option Ledger
  | .create issuer maximumSupply => L.create chain self issuer maximumSupply
  | .issue _ quantity memo => L.issue chain quantity memo
  | .retire quantity memo => L.retire chain quantity memo
  | .transfer fromAccount toAccount quantity memo => L.transfer chain fromAccount toAccount quantity memo
  | .openAccount owner symbol payer => L.openAccount chain owner symbol payer
  | .closeAccount owner symbol => L.closeAccount chain owner symbol
  | .balanceOf owner symbol => (L.balanceOf owner symbol).map fun _ => L

end Ledger

end

end Wasmlib
