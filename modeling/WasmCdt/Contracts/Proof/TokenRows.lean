import WasmCdt.Contracts.Proof.Ledger
import WasmCdt.Contracts.Proof.Classes
import WasmCdt.Core.Proof.AssetText

/-!
# The rows of a ledger

`Holds s L`: the rows of the token contract's tables in the store `s` are the ledger `L`.
-/

namespace Wasmlib.Token

open Scoped

/-! ## Rows -/

theorem accounts_fixed (owner : Regid) : (accounts owner).Fixed where
  object := ⟨_, .struct (.cons Class.regid_fixed (.cons Class.asset_fixed .nil)) _, by decide, by decide⟩
  primary := ⟨8, .int 8, by decide⟩

theorem stats_fixed (symCodeRaw : BitVec (8 * 8)) : (stats symCodeRaw).Fixed where
  object := ⟨_, .struct (.cons Class.asset_fixed (.cons Class.asset_fixed
    (.cons Class.regid_fixed .nil))) _, by decide, by decide⟩
  primary := ⟨8, .int 8, by decide⟩

/-- Where the account of `owner` with the symbol code `c` is. -/
def accountKey (owner : Regid) (c : SymbolCode) : List UInt8 := (accounts owner).rowKey c.raw

def statsKey (c : SymbolCode) : List UInt8 := (stats c.raw).rowKey c.raw

theorem accountKey_inj {o o' : Regid} {c c' : SymbolCode} (h : accountKey o c = accountKey o' c') :
    o = o' ∧ c = c' := by
  obtain ⟨-, howner, hcode⟩ := (accounts_fixed o).rowKey_inj (accounts o') rfl h
  cases o
  cases o'
  cases c
  cases c'
  exact ⟨congrArg Regid.mk howner, congrArg SymbolCode.mk hcode⟩

theorem statsKey_inj {c c' : SymbolCode} (h : statsKey c = statsKey c') : c = c' := by
  obtain ⟨-, -, hcode⟩ := (stats_fixed c.raw).rowKey_inj (stats c'.raw) rfl h
  cases c
  cases c'
  exact congrArg SymbolCode.mk hcode

theorem accountKey_ne_statsKey (o : Regid) (c c' : SymbolCode) : accountKey o c ≠ statsKey c' := by
  intro h
  have hname : Name.literal "accounts" = Name.literal "stat" :=
    ((accounts_fixed o).rowKey_inj (stats c'.raw) rfl h).1
  exact absurd hname (by decide)

/-! ## Amounts -/

/-- So many units. -/
def amount (n : Nat) : SInt 64 := SInt.wrap 64 amountBits_pos n

theorem amount_val {n : Nat} (h : (n : Int) ≤ maxAmount) : (amount n).val = n := by
  have habs : |(n : Int)| ≤ maxAmount := by rwa [abs_of_nonneg (Int.natCast_nonneg n)]
  have hrange : SInt.InRange 64 n := SInt.inRange_of_abs_le habs (by decide)
  simp only [amount, SInt.wrap]
  exact SInt.bmod_of_inRange amountBits_pos hrange

theorem eq_amount {n : Nat} (h : (n : Int) ≤ maxAmount) {a : SInt 64} (ha : a.val = n) : a = amount n :=
  SInt.ext (ha.trans (amount_val h).symm)

theorem isValid_amount {n : Nat} {s : Symbol} (h : (n : Int) ≤ maxAmount) (hs : s.isValid = true) :
    (⟨amount n, s⟩ : Asset).isValid = true := by
  refine Bool.and_eq_true_iff.2 ⟨isAmountWithinRange_iff.2 ?_, hs⟩
  change |(amount n).val| ≤ maxAmount
  rwa [amount_val h, abs_of_nonneg (Int.natCast_nonneg n)]

theorem asset_eq {quantity : Asset} (h : quantity.isValid = true) (hpos : 0 < quantity.amount.val) :
    quantity = ⟨amount (units quantity), quantity.symbol⟩ := by
  rw [← eq_amount (units_le h) (units_eq hpos).symm]

/-! ## Amounts of assets -/

section

variable {a b : Asset} {symbol : Symbol} {k : Nat}

theorem amount_ge (hk : (k : Int) ≤ maxAmount) : -maxAmount ≤ (amount k).val := by
  have hneg : -maxAmount ≤ 0 := by decide
  have hval := amount_val hk
  omega

theorem amount_le (hk : (k : Int) ≤ maxAmount) : (amount k).val ≤ maxAmount := by
  have hval := amount_val hk
  omega

theorem subAssign_eq (ha : a.symbol = symbol) (hb : b.symbol = symbol) (hk : (k : Int) ≤ maxAmount)
    (hval : a.amount.val - b.amount.val = k) : a.subAssign b = .ok ⟨amount k, symbol⟩ := by
  subst ha
  have hrange : SInt.InRange 64 (a.amount.val - b.amount.val) := by
    have hk' := (amount k).inRange
    rwa [amount_val hk, ← hval] at hk'
  have hamount : (⟨_, hrange⟩ : SInt 64) = amount k := eq_amount hk hval
  rw [Asset.subAssign, check_bind, if_pos (decide_eq_true hb), SInt.sub,
    SInt.ofInt?_of_inRange hrange, hamount, defined_some, ok_bind, check_bind,
    if_pos (decide_eq_true (amount_ge hk)), check_bind, if_pos (decide_eq_true (amount_le hk)), pure_eq_ok]

theorem addAssign_eq (ha : a.symbol = symbol) (hb : b.symbol = symbol) (hk : (k : Int) ≤ maxAmount)
    (hval : a.amount.val + b.amount.val = k) : a.addAssign b = .ok ⟨amount k, symbol⟩ := by
  subst ha
  have hrange : SInt.InRange 64 (a.amount.val + b.amount.val) := by
    have hk' := (amount k).inRange
    rwa [amount_val hk, ← hval] at hk'
  have hamount : (⟨_, hrange⟩ : SInt 64) = amount k := eq_amount hk hval
  rw [Asset.addAssign, check_bind, if_pos (decide_eq_true hb), SInt.add,
    SInt.ofInt?_of_inRange hrange, hamount, defined_some, ok_bind, check_bind,
    if_pos (decide_eq_true (amount_ge hk)), check_bind, if_pos (decide_eq_true (amount_le hk)), pure_eq_ok]

/-- A subtraction of amounts in range aborts or has a result, with the symbol kept. -/
theorem subAssign_cases (ha : a.InRange) (hb : b.InRange) :
    (∃ msg, a.subAssign b = .error (.abort msg)) ∨ ∃ r, a.subAssign b = .ok r ∧ r.symbol = a.symbol := by
  have hyields := subAssign_yields ha hb
  cases hsub : a.subAssign b with
  | ok r =>
    rw [hsub] at hyields
    exact .inr ⟨r, rfl, hyields.2.1⟩
  | error e =>
    rw [hsub] at hyields
    cases e with
    | abort msg => exact .inl ⟨msg, rfl⟩
    | fault => exact hyields.elim

end

/-! ## Representation -/

noncomputable section

/-- The row of a currency. -/
def statsRow (x : Currency) : CurrencyStats :=
  ⟨⟨amount x.supply, x.symbol⟩, ⟨amount x.maxSupply, x.symbol⟩, x.issuer⟩

/-- The row of an account. -/
def accountRow (x : Currency) (owner : Regid) : Account := ⟨owner, ⟨amount (x.held owner), x.symbol⟩⟩

/-- What is stored for an account, which may not be open. -/
def storedAccount (x : Currency) (owner : Regid) : Option (List UInt8) :=
  if owner ∈ x.opened then some ((accounts owner).row (accountRow x owner)) else none

/-- The rows of the two tables are the ledger. -/
structure Holds (s : Db.Store) (L : Ledger) : Prop where
  stats : ∀ c, s (statsKey c) = (L.currency c).map fun x => (stats c.raw).row (statsRow x)
  accounts : ∀ o c, s (accountKey o c) = (L.currency c).bind fun x => storedAccount x o

theorem holds_empty : Holds (fun _ => none) Ledger.empty := ⟨fun _ => rfl, fun _ _ => rfl⟩

end

/-- Somebody who holds `n`. -/
def holding (owner : Regid) (symbol : Symbol) (n : Nat) : Account := ⟨owner, ⟨amount n, symbol⟩⟩

/-! ## Rows of a ledger -/

section

variable {s s' : Db.Store} {L : Ledger} {x x' : Currency}

theorem Holds.getStats (h : Holds s L) (c : SymbolCode) :
    (Token.stats c.raw).get c.raw s = .ok ((L.currency c).map statsRow) := by
  have hrow := h.stats c
  cases hx : L.currency c with
  | none =>
    rw [hx] at hrow
    exact (stats_fixed c.raw).get_of_none hrow
  | some x =>
    rw [hx] at hrow
    exact (stats_fixed c.raw).get_of_row hrow

theorem storedAccount_of_mem {o : Regid} (h : o ∈ x.opened) :
    storedAccount x o = some ((accounts o).row (accountRow x o)) := if_pos h

theorem storedAccount_of_not_mem {o : Regid} (h : o ∉ x.opened) : storedAccount x o = none := if_neg h

theorem storedAccount_congr {o : Regid} (hopened : o ∈ x'.opened ↔ o ∈ x.opened)
    (hheld : x'.held o = x.held o) (hsymbol : x'.symbol = x.symbol) :
    storedAccount x' o = storedAccount x o := by
  unfold storedAccount accountRow
  rw [hheld, hsymbol]
  exact if_congr hopened rfl rfl

/-- A row that is stored for the currency. -/
theorem Holds.accounts_at (h : Holds s L) {c : SymbolCode} (hx : L.currency c = some x) (o : Regid) :
    s (accountKey o c) = storedAccount x o := by
  rw [h.accounts, hx, Option.bind_some]

theorem Holds.stats_at (h : Holds s L) {c : SymbolCode} (hx : L.currency c = some x) :
    s (statsKey c) = some ((Token.stats c.raw).row (statsRow x)) := by
  rw [h.stats, hx, Option.map_some]

/-- **A frame rule**: the rows of one currency change, and nothing else. -/
theorem Holds.update (h : Holds s L)
    (hstats : s' (statsKey x.symbol.code) = some ((Token.stats x.symbol.code.raw).row (statsRow x)))
    (haccounts : ∀ o, s' (accountKey o x.symbol.code) = storedAccount x o)
    (hframe : ∀ k, k ≠ statsKey x.symbol.code → (∀ o, k ≠ accountKey o x.symbol.code) → s' k = s k) :
    Holds s' (L.update x) where
  stats c := by
    by_cases hc : c = x.symbol.code
    · subst hc
      rw [hstats, L.update_self, Option.map_some]
    · have hne : statsKey c ≠ statsKey x.symbol.code := fun heq => hc (statsKey_inj heq)
      rw [hframe _ hne fun o => (accountKey_ne_statsKey o _ c).symm, h.stats, L.update_of_ne x hc]
  accounts o c := by
    by_cases hc : c = x.symbol.code
    · subst hc
      rw [haccounts, L.update_self, Option.bind_some]
    · have hne : ∀ o', accountKey o c ≠ accountKey o' x.symbol.code := fun o' heq =>
        hc (accountKey_inj heq).2
      rw [hframe _ (accountKey_ne_statsKey o c _) hne, h.accounts, L.update_of_ne x hc]

/-- One account of the currency is written, and perhaps its row. -/
theorem Holds.update_account {o : Regid} {v : Option (List UInt8)} (h : Holds s L) (x' : Currency)
    (hx : L.currency x.symbol.code = some x) (hsymbol : x'.symbol = x.symbol)
    (hrow : storedAccount x' o = v)
    (hothers : ∀ o', o' ≠ o → storedAccount x' o' = storedAccount x o') :
    Holds (Function.update (Function.update s (statsKey x.symbol.code)
      (some ((Token.stats x.symbol.code.raw).row (statsRow x')))) (accountKey o x.symbol.code) v)
      (L.update x') := by
  have hstatsne := (accountKey_ne_statsKey o x.symbol.code x.symbol.code).symm
  refine h.update ?_ (fun o' => ?_) fun k hk hk' => ?_
  · rw [hsymbol, Function.update_of_ne hstatsne, Function.update_self]
  · rw [hsymbol]
    by_cases ho : o' = o
    · subst ho
      rw [Function.update_self, hrow]
    · have hne : accountKey o' x.symbol.code ≠ accountKey o x.symbol.code := fun heq =>
        ho (accountKey_inj heq).1
      rw [Function.update_of_ne hne, Function.update_of_ne (accountKey_ne_statsKey _ _ _),
        h.accounts_at hx, hothers o' ho]
  · rw [hsymbol] at hk hk'
    rw [Function.update_of_ne (hk' o), Function.update_of_ne hk]

end

end Wasmlib.Token
