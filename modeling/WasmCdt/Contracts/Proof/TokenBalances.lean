import WasmCdt.Contracts.Proof.TokenRows

/-!
# Balances

What `sub_balance` and `add_balance` do with the row of an account. They abort, or the row tells the rest or
the sum.
-/

namespace Wasmlib.Token

open Scoped

/-! ## Balances -/

section

variable {chain : Chain} {s : Db.Store} {x : Currency} {owner : Regid} {quantity : Asset} {n : Nat}

theorem key_of_row (a : Account) {c : SymbolCode} (h : a.balance.symbol.code = c) :
    (accounts owner).rowKey ((accounts owner).primaryKey a) = accountKey owner c := by
  subst h
  rfl

theorem key_holding (owner : Regid) (symbol : Symbol) (n : Nat) :
    (accounts owner).rowKey ((accounts owner).primaryKey (holding owner symbol n)) =
      accountKey owner symbol.code := key_of_row _ rfl

/-- The row of somebody who holds `n`. -/
def balanceRow (owner : Regid) (symbol : Symbol) (n : Nat) : List UInt8 :=
  (accounts owner).row (holding owner symbol n)

theorem holding_val (owner : Regid) (symbol : Symbol) (hn : (n : Int) ≤ maxAmount) :
    (holding owner symbol n).balance.amount.val = n := amount_val hn

theorem symbol_holding (owner : Regid) (symbol : Symbol) (n : Nat) :
    (holding owner symbol n).balance.symbol = symbol := rfl

theorem withBalance_eq {symbol : Symbol} {m : Nat} {r : Exec Asset} (h : r = .ok ⟨amount m, symbol⟩) :
    (r >>= fun balance => (pure { holding owner symbol n with balance } : Exec Account)) =
      .ok (holding owner symbol m) := by
  simp only [h, ok_bind, pure_eq_ok, holding]

/-- A change of what somebody holds. -/
theorem modify_holding {f : Account → Exec Account} {m : Nat}
    (hrow : s (accountKey owner quantity.symbol.code) = some (balanceRow owner quantity.symbol n))
    (hf : f (holding owner quantity.symbol n) = .ok (holding owner quantity.symbol m)) :
    (accounts owner).modify chain.absent (holding owner quantity.symbol n) f s =
      .ok (Function.update s (accountKey owner quantity.symbol.code)
        (some (balanceRow owner quantity.symbol m))) := by
  have hne : s (accountKey owner quantity.symbol.code) ≠ none := by
    rw [hrow]
    exact Option.some_ne_none _
  rw [← key_holding owner quantity.symbol m] at hne ⊢
  exact (accounts_fixed owner).modify_eq _ hne hf

theorem subBalance_none (hrow : s (accountKey owner quantity.symbol.code) = none) :
    subBalance chain owner quantity s = .error (.abort "no balance object found") := by
  have hget : (accounts owner).get quantity.symbol.code.raw s = .ok none :=
    (accounts_fixed owner).get_of_none hrow
  simp only [subBalance, hget, ok_bind]

theorem subBalance_found {row : Account} {balanceText valueText : Text}
    (hget : (accounts owner).get quantity.symbol.code.raw s = .ok (some row))
    (hbalance : row.balance.toStr = .ok balanceText) (hvalue : quantity.toStr = .ok valueText) :
    subBalance chain owner quantity s = (check (row.balance.amount.val ≥ quantity.amount.val)
      (overdrawn balanceText valueText) >>= fun _ => (accounts owner).modify chain.absent row (fun a => do
        let balance ← a.balance.subAssign quantity
        pure { a with balance }) s) := by
  simp only [subBalance, hget, ok_bind, hbalance, hvalue]

theorem subBalance_row (hvalid : quantity.isValid = true) (hpos : 0 < quantity.amount.val)
    (hn : (n : Int) ≤ maxAmount)
    (hrow : s (accountKey owner quantity.symbol.code) = some (balanceRow owner quantity.symbol n)) :
    ∃ msg, subBalance chain owner quantity s = if units quantity ≤ n then
      .ok (Function.update s (accountKey owner quantity.symbol.code)
        (some (balanceRow owner quantity.symbol (n - units quantity))))
      else .error (.abort msg) := by
  have hget : (accounts owner).get quantity.symbol.code.raw s =
      .ok (some (holding owner quantity.symbol n)) := (accounts_fixed owner).get_of_row hrow
  have hbalance : (holding owner quantity.symbol n).balance.isValid = true :=
    isValid_amount hn (symbol_valid hvalid)
  have hunits := units_eq hpos
  have hval := holding_val owner quantity.symbol hn
  obtain ⟨balanceText, hbalanceText⟩ : ∃ t, (holding owner quantity.symbol n).balance.toStr = .ok t :=
    ⟨_, toStr_eq hbalance⟩
  obtain ⟨valueText, hvalueText⟩ : ∃ t, quantity.toStr = .ok t := ⟨_, toStr_eq hvalid⟩
  refine ⟨overdrawn balanceText valueText, ?_⟩
  rw [subBalance_found hget hbalanceText hvalueText, check_bind]
  by_cases hle : units quantity ≤ n
  · have hge : (holding owner quantity.symbol n).balance.amount.val ≥ quantity.amount.val := by omega
    have hk : ((n - units quantity : Nat) : Int) ≤ maxAmount := by omega
    have hrest : (holding owner quantity.symbol n).balance.amount.val - quantity.amount.val =
        ((n - units quantity : Nat) : Int) := by omega
    have hsub := subAssign_eq (symbol_holding owner quantity.symbol n) rfl hk hrest
    rw [if_pos (decide_eq_true hge), if_pos hle]
    exact modify_holding hrow (withBalance_eq hsub)
  · have hlt : ¬(holding owner quantity.symbol n).balance.amount.val ≥ quantity.amount.val := by omega
    rw [if_neg (ne_true_of_eq_false (decide_eq_false hlt)), if_neg hle]

theorem addBalance_none (hvalid : quantity.isValid = true) (hpos : 0 < quantity.amount.val)
    (hrow : s (accountKey owner quantity.symbol.code) = none) :
    addBalance chain owner quantity s = .ok (Function.update s (accountKey owner quantity.symbol.code)
      (some (balanceRow owner quantity.symbol (units quantity)))) := by
  have hget : (accounts owner).get quantity.symbol.code.raw s = .ok none :=
    (accounts_fixed owner).get_of_none hrow
  simp only [addBalance, hget, ok_bind]
  have hasset : holding owner quantity.symbol (units quantity) = ⟨owner, quantity⟩ :=
    congrArg (Account.mk owner) (asset_eq hvalid hpos).symm
  rw [balanceRow, hasset, ← key_of_row ⟨owner, quantity⟩ rfl]
  exact (accounts_fixed owner).emplace_eq ⟨owner, quantity⟩ rfl

theorem addBalance_row (hpos : 0 < quantity.amount.val) (hn : ((n + units quantity : Nat) : Int) ≤ maxAmount)
    (hrow : s (accountKey owner quantity.symbol.code) = some (balanceRow owner quantity.symbol n)) :
    addBalance chain owner quantity s = .ok (Function.update s (accountKey owner quantity.symbol.code)
      (some (balanceRow owner quantity.symbol (n + units quantity)))) := by
  have hget : (accounts owner).get quantity.symbol.code.raw s =
      .ok (some (holding owner quantity.symbol n)) := (accounts_fixed owner).get_of_row hrow
  have hunits := units_eq hpos
  have hval := holding_val owner quantity.symbol (n := n) (by omega)
  have hsum : (holding owner quantity.symbol n).balance.amount.val + quantity.amount.val =
      ((n + units quantity : Nat) : Int) := by omega
  have hadd := addAssign_eq (symbol_holding owner quantity.symbol n) rfl hn hsum
  simp only [addBalance, hget, ok_bind]
  exact modify_holding hrow (withBalance_eq hadd)

/-- Taking from an account of the currency is refused, or leaves the rest. -/
theorem subBalance_stored (hvalid : quantity.isValid = true) (hpos : 0 < quantity.amount.val)
    (hsymbol : quantity.symbol = x.symbol)
    (hrow : s (accountKey owner x.symbol.code) = storedAccount x owner) :
    ∃ msg, subBalance chain owner quantity s = if units quantity ≤ x.held owner then
      .ok (Function.update s (accountKey owner x.symbol.code)
        (some (balanceRow owner x.symbol (x.held owner - units quantity))))
      else .error (.abort msg) := by
  rw [← hsymbol] at hrow ⊢
  by_cases hmem : owner ∈ x.opened
  · have hheld : ((x.held owner : Nat) : Int) ≤ maxAmount := by
      have hle := (Finsupp.le_degree owner x.held).trans x.held_le
      have hmax := x.maxSupply_le
      omega
    refine subBalance_row hvalid hpos hheld (hrow.trans ?_)
    rw [storedAccount_of_mem hmem, accountRow, ← hsymbol]
    rfl
  · have hunits := units_eq hpos
    have hlt : ¬units quantity ≤ x.held owner := by
      rw [Currency.held_of_not_mem hmem]
      omega
    rw [storedAccount_of_not_mem hmem] at hrow
    exact ⟨_, (subBalance_none hrow).trans (if_neg hlt).symm⟩

/-- Adding to an account of the currency opens it if need be. -/
theorem addBalance_stored (hvalid : quantity.isValid = true) (hpos : 0 < quantity.amount.val)
    (hsymbol : quantity.symbol = x.symbol) (hmax : ((x.held owner + units quantity : Nat) : Int) ≤ maxAmount)
    (hrow : s (accountKey owner x.symbol.code) = storedAccount x owner) :
    addBalance chain owner quantity s = .ok (Function.update s (accountKey owner x.symbol.code)
      (some (balanceRow owner x.symbol (x.held owner + units quantity)))) := by
  rw [← hsymbol] at hrow ⊢
  by_cases hmem : owner ∈ x.opened
  · refine addBalance_row hpos hmax (hrow.trans ?_)
    rw [storedAccount_of_mem hmem, accountRow, ← hsymbol]
    rfl
  · rw [storedAccount_of_not_mem hmem] at hrow
    rw [Currency.held_of_not_mem hmem, Nat.zero_add]
    exact addBalance_none hvalid hpos hrow

end

end Wasmlib.Token
