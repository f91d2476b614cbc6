import WasmCdt.Contracts.Proof.TokenInline
import WasmCdt.Contracts.Proof.TokenOperations

/-!
# The token contract keeps a ledger

An action on the rows is the operation on the ledger (`exec_refines`).
-/

namespace Wasmlib.Token

open Scoped

/-- The action leaves what the ledger becomes, or is refused with a message where the ledger refuses. -/
def Refines (r : Exec World) : Option Ledger → Prop
  | some L' => ∃ w', r = .ok w' ∧ Holds w'.db L'
  | none => ∃ msg, r = .error (.abort msg)

namespace Refines

variable {p : Bool} {msg : String} {f : Unit → Exec World} {C : Prop} {_ : Decidable C} {g : C → Ledger}

/-- A check of something that is refused anyway. -/
theorem check_none (h : p = true → Refines (f ()) none) : Refines (check p msg >>= f) none := by
  rw [check_bind]
  cases p with
  | true => exact h rfl
  | false => exact ⟨msg, rfl⟩

/-- A check that belongs to the condition. -/
theorem check (hneed : C → p = true)
    (h : p = true → Refines (f ()) (if hc : C then some (g hc) else none)) :
    Refines (Wasmlib.check p msg >>= f) (if hc : C then some (g hc) else none) := by
  rw [check_bind]
  cases hp : p with
  | true => exact h hp
  | false =>
    have hc : ¬C := fun hc => by
      rw [hneed hc] at hp
      cases hp
    rw [dif_neg hc]
    exact ⟨msg, rfl⟩

theorem accept {r : Exec World} {w' : World} (hc : C) (hr : r = .ok w') (h : Holds w'.db (g hc)) :
    Refines r (if hc : C then some (g hc) else none) := by
  rw [dif_pos hc]
  exact ⟨w', hr, h⟩

/-- `accept`, for a known store. -/
theorem accept_at {r : Exec World} {s : Db.Store} (inline : List (List UInt8)) (hc : C) (h : Holds s (g hc))
    (hr : r = .ok ⟨s, inline⟩) : Refines r (if hc : C then some (g hc) else none) := accept hc hr h

theorem refuse {r : Exec World} (hc : ¬C) (hr : ∃ msg, r = .error (.abort msg)) :
    Refines r (if hc : C then some (g hc) else none) := by
  rw [dif_neg hc]
  exact hr

end Refines

section

variable {chain : Chain} {self : Regid} {L : Ledger} {w : World}

theorem onDb_eq {f : Db.Store → Exec Db.Store} {s : Db.Store} (h : f w.db = .ok s) :
    w.onDb f = .ok { w with db := s } := by
  simp only [World.onDb, h, ok_bind, pure_eq_ok]

theorem onDb_mk {f : Db.Store → Exec Db.Store} {s s' : Db.Store} {inline : List (List UInt8)}
    (h : f s = .ok s') : (⟨s, inline⟩ : World).onDb f = .ok ⟨s', inline⟩ := onDb_eq h

theorem onDb_error {f : Db.Store → Exec Db.Store} {e : Stop} (h : f w.db = .error e) :
    w.onDb f = .error e := by
  simp only [World.onDb, h, error_bind]

/-! ## Currencies and accounts -/

theorem create_refines (h : Holds w.db L) (issuer : Regid) (maximumSupply : Asset) :
    Refines (create chain self issuer maximumSupply w) (L.create chain self issuer maximumSupply) := by
  have hget := h.getStats maximumSupply.symbol.code
  refine .check (fun hc => hc.1) fun hauth => ?_
  refine .check (fun hc => decide_eq_true hc.2.1) fun hissuer => ?_
  refine .check (fun hc => symbol_valid hc.2.2.1) fun hsymbol => ?_
  refine .check (fun hc => hc.2.2.1) fun hvalid => ?_
  refine .check (fun hc => decide_eq_true hc.2.2.2.1) fun hpos => ?_
  rw [hget, ok_bind]
  refine .check (fun hc => by rw [hc.2.2.2.2]; rfl) fun hnone => ?_
  have hpos' : 0 < maximumSupply.amount.val := of_decide_eq_true hpos
  have hnew : L.currency maximumSupply.symbol.code = none := by
    rwa [Option.isNone_map, Option.isNone_iff_eq_none] at hnone
  have hasset := asset_eq hvalid hpos'
  have hamount : (⟨0, by decide⟩ : SInt 64) = amount 0 := eq_amount (by decide) rfl
  refine .accept ⟨hauth, of_decide_eq_true hissuer, hvalid, hpos', hnew⟩ (onDb_eq
    ((stats_fixed _).emplace_eq ⟨⟨⟨0, by decide⟩, maximumSupply.symbol⟩, maximumSupply, issuer⟩ rfl)) ?_
  refine h.update ?_ (fun o => ?_) fun k hk _ => Function.update_of_ne hk _ _
  · refine (Function.update_self _ _ _).trans (congrArg some (congrArg _ ?_))
    rw [statsRow, new_supply, hamount]
    exact congrArg (fun m => CurrencyStats.mk ⟨amount 0, maximumSupply.symbol⟩ m issuer) hasset
  · have hne : accountKey o maximumSupply.symbol.code ≠ statsKey maximumSupply.symbol.code :=
      accountKey_ne_statsKey o _ _
    refine (Function.update_of_ne hne _ _).trans ((h.accounts o _).trans ?_)
    exact (congrArg (Option.bind · _) hnew).trans (storedAccount_of_not_mem (Finset.notMem_empty o)).symm

theorem new_zero {symbol : Symbol} (hvalid : symbol.isValid = true) :
    Asset.new ⟨0, by decide⟩ symbol = .ok ⟨amount 0, symbol⟩ := by
  have hamount : (⟨0, by decide⟩ : SInt 64) = amount 0 := eq_amount (by decide) rfl
  have hzero : (⟨amount 0, symbol⟩ : Asset).isAmountWithinRange = true :=
    (Bool.and_eq_true_iff.1 (isValid_amount (by decide) hvalid)).1
  rw [hamount, Asset.new, check_bind, if_pos hzero, check_bind, if_pos hvalid, pure_eq_ok]

theorem open_refines (h : Holds w.db L) (owner : Regid) (symbol : Symbol) (payer : Regid) :
    Refines (openAccount chain owner symbol payer w) (L.openAccount chain owner symbol payer) := by
  have hget := h.getStats symbol.code
  rw [Ledger.openAccount]
  cases hx : L.currency symbol.code with
  | none =>
    rw [hx] at hget
    refine .check_none fun _ => ?_
    dsimp only
    rw [hget, ok_bind]
    exact ⟨_, rfl⟩
  | some x =>
    rw [hx] at hget
    rw [Option.bind_some]
    refine .check (fun hc => hc.1) fun hauth => ?_
    dsimp only
    rw [hget, Option.map_some, ok_bind]
    refine .check (fun hc => decide_eq_true hc.2) fun hsame => ?_
    obtain rfl : x.symbol = symbol := of_decide_eq_true hsame
    have hacc := h.accounts_at hx owner
    have hothers : ∀ o, o ≠ owner → storedAccount (x.openAccount owner) o = storedAccount x o :=
      fun o ho => storedAccount_congr (Finset.mem_insert.trans (or_iff_right ho)) rfl rfl
    have hself : storedAccount (x.openAccount owner) owner = some (balanceRow owner x.symbol (x.held owner)) :=
      storedAccount_eq (Finset.mem_insert_self _ _) rfl rfl
    have hwrite := h.write_account (x.openAccount owner) hx rfl rfl hself hothers
    by_cases hmem : owner ∈ x.opened
    · have hrow : w.db (accountKey owner x.symbol.code) = some (balanceRow owner x.symbol (x.held owner)) :=
        hacc.trans (storedAccount_of_mem hmem)
      have hfound : (accounts owner).get x.symbol.code.raw w.db = .ok (some (accountRow x owner)) :=
        (accounts_fixed owner).get_of_row hrow
      rw [← hrow, Function.update_eq_self] at hwrite
      rw [hfound, ok_bind]
      exact .accept ⟨hauth, rfl⟩ rfl hwrite
    · have hfound : (accounts owner).get x.symbol.code.raw w.db = .ok none :=
        (accounts_fixed owner).get_of_none (hacc.trans (storedAccount_of_not_mem hmem))
      rw [Currency.held_of_not_mem hmem, ← key_holding owner x.symbol 0] at hwrite
      rw [hfound, ok_bind]
      refine .accept ⟨hauth, rfl⟩ (onDb_eq ((accounts_fixed owner).emplace_eq (holding owner x.symbol 0) ?_)) hwrite
      rw [new_zero x.symbol_valid]
      rfl

theorem close_refines (h : Holds w.db L) (owner : Regid) (symbol : Symbol) :
    Refines (closeAccount chain owner symbol w) (L.closeAccount chain owner symbol) := by
  rw [Ledger.closeAccount]
  cases hx : L.currency symbol.code with
  | none =>
    have hrow : w.db (accountKey owner symbol.code) = none := by rw [h.accounts, hx, Option.bind_none]
    have hfound : (accounts owner).get symbol.code.raw w.db = .ok none :=
      (accounts_fixed owner).get_of_none hrow
    refine .check_none fun _ => ?_
    rw [hfound, ok_bind]
    exact ⟨_, rfl⟩
  | some x =>
    have hcode : x.symbol.code = symbol.code := L.code_eq _ _ hx
    rw [← hcode] at hx
    have hacc := h.accounts_at hx owner
    rw [Option.bind_some, closeAccount, ← hcode]
    refine .check (fun hc => hc.1) fun hauth => ?_
    by_cases hmem : owner ∈ x.opened
    · have hfound : (accounts owner).get x.symbol.code.raw w.db =
          .ok (some (holding owner x.symbol (x.held owner))) :=
        (accounts_fixed owner).get_of_row (hacc.trans (storedAccount_of_mem hmem))
      have hheld : ((x.held owner : Nat) : Int) ≤ maxAmount := by
        have hle := x.held_le_supply owner
        have hsupply := supply_le (x := x)
        omega
      have hval := holding_val owner x.symbol hheld
      rw [hfound, ok_bind]
      refine .check (fun hc => decide_eq_true (by rw [hval, hc.2.2]; rfl)) fun hzero => ?_
      have hnone : x.held owner = 0 := by
        have hzero' := of_decide_eq_true hzero
        rw [hval] at hzero'
        exact_mod_cast hzero'
      have hself : storedAccount (x.closeAccount owner hnone) owner = none :=
        storedAccount_of_not_mem (Finset.notMem_erase _ _)
      have hothers : ∀ o, o ≠ owner → storedAccount (x.closeAccount owner hnone) o = storedAccount x o :=
        fun o ho => storedAccount_congr (Finset.mem_erase.trans (and_iff_right ho)) rfl rfl
      have hwrite := h.write_account (x.closeAccount owner hnone) hx rfl rfl hself hothers
      rw [← key_holding owner x.symbol (x.held owner)] at hwrite
      exact .accept ⟨hauth, hmem, hnone⟩ (onDb_eq (accounts_fixed owner).erase_eq) hwrite
    · have hfound : (accounts owner).get x.symbol.code.raw w.db = .ok none :=
        (accounts_fixed owner).get_of_none (hacc.trans (storedAccount_of_not_mem hmem))
      rw [hfound, ok_bind]
      exact .refuse (fun hc => hmem hc.2.1) ⟨_, rfl⟩

variable {quantity : Asset} {memo : List UInt8}

/-! ## Quantities -/

theorem issue_refines (h : Holds w.db L) (toAccount : Regid) :
    Refines (issue chain self toAccount quantity memo w) (L.issue chain quantity memo) := by
  have hget := h.getStats quantity.symbol.code
  rw [Ledger.issue]
  cases hx : L.currency quantity.symbol.code with
  | none =>
    rw [hx] at hget
    refine .check_none fun _ => .check_none fun _ => ?_
    rw [hget, ok_bind]
    exact ⟨_, rfl⟩
  | some x =>
    rw [hx] at hget
    rw [Option.bind_some]
    refine .check (fun hc => symbol_valid hc.2.1.valid) fun _ => ?_
    refine .check (fun hc => decide_eq_true hc.2.1.memo_le) fun hmemo => ?_
    rw [hget, Option.map_some, ok_bind]
    refine .check (fun hc => hc.1) fun hauth => ?_
    refine .check (fun hc => hc.2.1.valid) fun hvalid => ?_
    refine .check (fun hc => decide_eq_true hc.2.1.positive) fun hpos => ?_
    refine .check (fun hc => decide_eq_true hc.2.2.1) fun hsame => ?_
    have hpay : Payable quantity memo := ⟨hvalid, of_decide_eq_true hpos, of_decide_eq_true hmemo⟩
    have hsymbol : quantity.symbol = x.symbol := of_decide_eq_true hsame
    have hunits := units_eq hpay.positive
    have hmax := x.maxSupply_le
    have hcap : x.supply ≤ x.maxSupply := x.held_le
    have havailable : (statsRow x).maxSupply.amount.sub (statsRow x).supply.amount =
        some (amount (x.maxSupply - x.supply)) := sub_amount hmax hcap
    rw [havailable, defined_some, ok_bind]
    have hrest : (amount (x.maxSupply - x.supply)).val = ((x.maxSupply - x.supply : Nat) : Int) :=
      amount_val (by omega)
    refine .check (fun hc => decide_eq_true (by rw [hrest, ← hunits]; omega)) fun hle => ?_
    have hissue : x.supply + units quantity ≤ x.maxSupply := by
      have hle' := of_decide_eq_true hle
      rw [hrest] at hle'
      omega
    -- the row of the currency, and the account of the issuer
    rw [hsymbol] at hx
    have hmodify : (stats _).modify chain.absent _ _ _ = _ := modify_issue h hx hpay.positive hsymbol hissue
    have hheld := x.held_le_supply x.issuer
    have hacc := h.account_beside hx x.issuer
      (some ((stats x.symbol.code.raw).row (statsRow (x.issue (units quantity) hissue))))
    have hbalance : addBalance chain x.issuer quantity _ = _ :=
      addBalance_stored hvalid hpay.positive hsymbol (by omega) hacc
    have hholds := h.issue hx hissue
    have hissuer : (statsRow x).issuer = x.issuer := rfl
    by_cases hto : toAccount = x.issuer
    · refine .accept_at w.inline ⟨hauth, hpay, hsymbol, hissue⟩ hholds ?_
      rw [hsymbol, onDb_eq hmodify, ok_bind, hissuer, onDb_mk hbalance, ok_bind, if_neg (not_not.2 hto)]
      rfl
    · refine .accept_at (w.inline ++ [Class.transaction.ty.format.bytes (Class.transaction.members
        (inlineTransfer self x.issuer toAccount quantity memo))]) ⟨hauth, hpay, hsymbol, hissue⟩ hholds ?_
      rw [hsymbol, onDb_eq hmodify, ok_bind, hissuer, onDb_mk hbalance, ok_bind, if_pos hto]
      exact send_transfer _ x.issuer toAccount quantity hpay.memo_le

theorem retire_refines (h : Holds w.db L) :
    Refines (retire chain quantity memo w) (L.retire chain quantity memo) := by
  have hget := h.getStats quantity.symbol.code
  rw [Ledger.retire]
  cases hx : L.currency quantity.symbol.code with
  | none =>
    rw [hx] at hget
    refine .check_none fun _ => .check_none fun _ => ?_
    rw [hget, ok_bind]
    exact ⟨_, rfl⟩
  | some x =>
    rw [hx] at hget
    rw [Option.bind_some]
    refine .check (fun hc => symbol_valid hc.2.1.valid) fun _ => ?_
    refine .check (fun hc => decide_eq_true hc.2.1.memo_le) fun hmemo => ?_
    rw [hget, Option.map_some, ok_bind]
    refine .check (fun hc => hc.1) fun hauth => ?_
    refine .check (fun hc => hc.2.1.valid) fun hvalid => ?_
    refine .check (fun hc => decide_eq_true hc.2.1.positive) fun hpos => ?_
    refine .check (fun hc => decide_eq_true hc.2.2.1) fun hsame => ?_
    have hpay : Payable quantity memo := ⟨hvalid, of_decide_eq_true hpos, of_decide_eq_true hmemo⟩
    have hsymbol : quantity.symbol = x.symbol := of_decide_eq_true hsame
    rw [hsymbol] at hx
    have hissuer : (statsRow x).issuer = x.issuer := rfl
    have hbalances : ∀ v, ∃ msg, subBalance chain x.issuer quantity
        (Function.update w.db (statsKey x.symbol.code) v) = _ := fun v =>
      subBalance_stored hvalid hpay.positive hsymbol (h.account_beside hx x.issuer v)
    by_cases hle : units quantity ≤ x.held x.issuer
    · have hmodify : (stats _).modify chain.absent _ _ _ = _ := modify_retire h hx hpay.positive hsymbol hle
      obtain ⟨msg, hbalance⟩ := hbalances (some ((stats x.symbol.code.raw).row
        (statsRow (x.retire (units quantity)))))
      rw [if_pos hle] at hbalance
      have hholds := h.retire hx (q := units quantity) (mem_of_units_le hpay.positive hle)
      refine .accept_at w.inline ⟨hauth, hpay, hsymbol, hle⟩ hholds ?_
      rw [hsymbol, onDb_eq hmodify, ok_bind, hissuer]
      exact onDb_mk hbalance
    · -- the supply is written before the balance is looked at
      refine .refuse (fun hc => hle hc.2.2.2) ?_
      have hcases := subAssign_cases (inRange_of_isValid (isValid_supply x)) (inRange_of_isValid hvalid)
      obtain ⟨msg, hsub⟩ | ⟨r, hsub, hkept⟩ := hcases
      · have hmodify : (stats x.symbol.code.raw).modify chain.absent (statsRow x) (fun s => do
            let supply ← s.supply.subAssign quantity
            pure { s with supply }) w.db = .error (.abort msg) :=
          ClassTable.Fixed.modify_error _ (withSupply_error hsub)
        exact ⟨msg, by rw [hsymbol, onDb_error hmodify, error_bind]⟩
      · have hmodify : (stats x.symbol.code.raw).modify chain.absent (statsRow x) (fun s => do
            let supply ← s.supply.subAssign quantity
            pure { s with supply }) w.db = .ok _ :=
          modify_stats (h.stats_ne_none hx) hkept (withSupply_eq hsub)
        obtain ⟨msg, hbalance⟩ := hbalances (some ((stats x.symbol.code.raw).row
          { statsRow x with supply := r }))
        rw [if_neg hle] at hbalance
        refine ⟨msg, ?_⟩
        rw [hsymbol, onDb_eq hmodify, ok_bind, hissuer]
        exact onDb_error hbalance

/-- An object that is default-constructed has no valid symbol. -/
theorem ne_default {symbol : Symbol} (h : symbol.isValid = true) : symbol ≠ defaultStats.supply.symbol := by
  rintro rfl
  exact absurd h (by decide)

theorem transfer_refines (h : Holds w.db L) (source target : Regid) :
    Refines (transfer chain source target quantity memo w) (L.transfer chain source target quantity memo) := by
  have hget := h.getStats quantity.symbol.code
  rw [Ledger.transfer]
  cases hx : L.currency quantity.symbol.code with
  | none =>
    rw [hx] at hget
    refine .check_none fun _ => .check_none fun _ => .check_none fun _ => ?_
    dsimp only
    rw [hget, ok_bind]
    refine .check_none fun hvalid => .check_none fun _ => .check_none fun hsame => ?_
    exact absurd (of_decide_eq_true hsame) (ne_default (symbol_valid hvalid))
  | some x =>
    rw [hx] at hget
    rw [Option.bind_some]
    refine .check (fun hc => decide_eq_true hc.1) fun hne => ?_
    refine .check (fun hc => hc.2.1) fun hauth => ?_
    refine .check (fun hc => hc.2.2.1) fun hto => ?_
    dsimp only
    rw [hget, ok_bind, Option.map_some, Option.getD_some]
    refine .check (fun hc => hc.2.2.2.1.valid) fun hvalid => ?_
    refine .check (fun hc => decide_eq_true hc.2.2.2.1.positive) fun hpos => ?_
    refine .check (fun hc => decide_eq_true hc.2.2.2.2.1) fun hsame => ?_
    refine .check (fun hc => decide_eq_true hc.2.2.2.1.memo_le) fun hmemo => ?_
    have hdistinct : source ≠ target := of_decide_eq_true hne
    have hpay : Payable quantity memo := ⟨hvalid, of_decide_eq_true hpos, of_decide_eq_true hmemo⟩
    have hsymbol : quantity.symbol = x.symbol := of_decide_eq_true hsame
    rw [hsymbol] at hx
    obtain ⟨msg, hsub⟩ : ∃ msg, subBalance chain source quantity w.db = _ :=
      subBalance_stored hvalid hpay.positive hsymbol (h.accounts_at hx source)
    by_cases hle : units quantity ≤ x.held source
    · rw [if_pos hle] at hsub
      have hheld : (x.transfer source target (units quantity) hle).held target =
          x.held target + units quantity := by
        simp [Currency.transfer, hdistinct]
      have hmax := held_le_max (x.transfer source target (units quantity) hle) target
      rw [hheld] at hmax
      have hrow : Function.update w.db (accountKey source x.symbol.code)
          (some (balanceRow source x.symbol (x.held source - units quantity)))
          (accountKey target x.symbol.code) = storedAccount x target := by
        have hkey : accountKey target x.symbol.code ≠ accountKey source x.symbol.code := fun heq =>
          hdistinct (accountKey_inj heq).1.symm
        rw [Function.update_of_ne hkey, h.accounts_at hx]
      have hadd : addBalance chain target quantity _ = _ :=
        addBalance_stored hvalid hpay.positive hsymbol hmax hrow
      have hholds := h.transfer hx hdistinct (mem_of_units_le hpay.positive hle) hle
      refine .accept_at w.inline ⟨hdistinct, hauth, hto, hpay, hsymbol, hle⟩ hholds ?_
      rw [onDb_eq hsub, ok_bind]
      exact onDb_mk hadd
    · rw [if_neg hle] at hsub
      refine .refuse (fun hc => hle hc.2.2.2.2.2) ⟨msg, ?_⟩
      rw [onDb_error hsub, error_bind]

/-! ## All actions -/

/-- What is asked for is what is held; refused for somebody without an account. -/
theorem balanceOf_eq (h : Holds w.db L) (owner : Regid) (symbol : Symbol) :
    match L.balanceOf owner symbol with
    | some n => balanceOf owner symbol w = .ok (amount n)
    | none => ∃ msg, balanceOf owner symbol w = .error (.abort msg) := by
  have hget := h.getStats symbol.code
  rw [Ledger.balanceOf, balanceOf]
  dsimp only
  rw [hget, ok_bind, check_bind]
  cases hx : L.currency symbol.code with
  | none =>
    rw [Option.bind_none]
    by_cases hsame : symbol = defaultStats.supply.symbol
    · have hfound : (accounts owner).get symbol.code.raw w.db = .ok none :=
        (accounts_fixed owner).get_of_none (by rw [← accountKey, h.accounts, hx, Option.bind_none])
      rw [Option.map_none, Option.getD_none, if_pos (decide_eq_true hsame), hfound, ok_bind]
      exact ⟨_, rfl⟩
    · rw [Option.map_none, Option.getD_none, if_neg (ne_true_of_eq_false (decide_eq_false hsame))]
      exact ⟨_, rfl⟩
  | some x =>
    rw [Option.bind_some, Option.map_some, Option.getD_some]
    by_cases hsame : symbol = x.symbol
    · subst hsame
      have hrow : x.symbol = (statsRow x).supply.symbol := rfl
      by_cases hmem : owner ∈ x.opened
      · have hfound : (accounts owner).get x.symbol.code.raw w.db = .ok (some (accountRow x owner)) :=
          (accounts_fixed owner).get_of_row ((h.accounts_at hx owner).trans (storedAccount_of_mem hmem))
        rw [if_pos ⟨rfl, hmem⟩, if_pos (decide_eq_true hrow), hfound, ok_bind]
        rfl
      · have hfound : (accounts owner).get x.symbol.code.raw w.db = .ok none :=
          (accounts_fixed owner).get_of_none ((h.accounts_at hx owner).trans (storedAccount_of_not_mem hmem))
        rw [if_neg fun hc => hmem hc.2, if_pos (decide_eq_true hrow), hfound, ok_bind]
        exact ⟨_, rfl⟩
    · have hrow : symbol ≠ (statsRow x).supply.symbol := hsame
      rw [if_neg fun hc => hsame hc.1, if_neg (ne_true_of_eq_false (decide_eq_false hrow))]
      exact ⟨_, rfl⟩

theorem balanceOf_refines (h : Holds w.db L) (owner : Regid) (symbol : Symbol) :
    Refines (do
      let _ ← balanceOf owner symbol w
      pure w) ((L.balanceOf owner symbol).map fun _ => L) := by
  have hbalance := balanceOf_eq h owner symbol
  cases hL : L.balanceOf owner symbol with
  | none =>
    rw [hL] at hbalance
    obtain ⟨msg, hrun⟩ := hbalance
    exact ⟨msg, by rw [hrun, error_bind]⟩
  | some n =>
    rw [hL] at hbalance
    exact ⟨w, by rw [hbalance, ok_bind, pure_eq_ok], h⟩

/-- **An action on the rows is the operation on the ledger**: it leaves the rows of what the ledger
becomes, and where the ledger refuses it aborts. -/
theorem exec_refines (h : Holds w.db L) (a : Action) :
    Refines (a.exec chain self w) (L.act chain self a) := by
  cases a with
  | create issuer maximumSupply => exact create_refines h issuer maximumSupply
  | issue toAccount quantity memo => exact issue_refines h toAccount
  | retire quantity memo => exact retire_refines h
  | transfer fromAccount toAccount quantity memo => exact transfer_refines h fromAccount toAccount
  | openAccount owner symbol payer => exact open_refines h owner symbol payer
  | closeAccount owner symbol => exact close_refines h owner symbol
  | balanceOf owner symbol => exact balanceOf_refines h owner symbol

end

/-- The account `signer` signs; 7 maintains the contract. -/
def sampleChain (signer : BitVec (8 * 8)) : Chain where
  hasAuth n := n = ⟨signer⟩
  isAccount _ := true
  getMaintainer _ := ⟨7⟩
  unauthorized _ := "missing authority"
  absent := .ignore

/-- `8,WICC`. -/
def sampleSymbol : Symbol := ⟨0x4343495708⟩

def sampleAsset (n : SInt 64) : Asset := ⟨n, sampleSymbol⟩

theorem exec_refines_sample : ∃ w' L',
    (Action.create ⟨7⟩ (sampleAsset ⟨1000, by decide⟩)).exec (sampleChain 7) ⟨1⟩ ⟨fun _ => none, []⟩ = .ok w' ∧
      Ledger.empty.act (sampleChain 7) ⟨1⟩ (.create ⟨7⟩ (sampleAsset ⟨1000, by decide⟩)) = some L' ∧
      Holds w'.db L' := by
  have hrefines : Refines ((Action.create ⟨7⟩ (sampleAsset ⟨1000, by decide⟩)).exec (sampleChain 7) ⟨1⟩
      ⟨fun _ => none, []⟩) (Ledger.empty.act (sampleChain 7) ⟨1⟩
        (.create ⟨7⟩ (sampleAsset ⟨1000, by decide⟩))) := exec_refines holds_empty _
  obtain ⟨L', hact⟩ : ∃ L', Ledger.empty.act (sampleChain 7) ⟨1⟩
      (.create ⟨7⟩ (sampleAsset ⟨1000, by decide⟩)) = some L' := by
    rw [Ledger.act, Ledger.create]
    exact ⟨_, dif_pos ⟨by decide, by decide, by decide, by decide, rfl⟩⟩
  rw [hact] at hrefines
  obtain ⟨w', hrun, hholds⟩ := hrefines
  exact ⟨w', L', hrun, hact, hholds⟩

end Wasmlib.Token
