import WasmCdt.Contracts.Proof.TokenBalances

/-!
# Operations on the rows

What the row of a currency becomes, and the rows that an issue, a retirement and a transfer leave: those of
the ledger after the operation.
-/

namespace Wasmlib.Token

open Scoped

variable {chain : Chain} {L : Ledger} {quantity : Asset}

/-! ## Rows of currencies -/

theorem new_supply (symbol : Symbol) (issuer : Regid) (maxSupply : Nat) (hvalid : symbol.isValid = true)
    (hmax : (maxSupply : Int) ≤ maxAmount) :
    (Currency.new symbol issuer maxSupply hvalid hmax).supply = 0 := map_zero _

theorem statsKey_of_row (st : CurrencyStats) {c : SymbolCode} (h : st.supply.symbol.code = c) :
    (stats c.raw).rowKey ((stats c.raw).primaryKey st) = statsKey c := by
  subst h
  rfl

/-- A change of the supply in the row of a currency. -/
theorem modify_stats {s : Db.Store} {x : Currency} {supply : Asset} {f : CurrencyStats → Exec CurrencyStats}
    (hrow : s (statsKey x.symbol.code) ≠ none) (hsymbol : supply.symbol = x.symbol)
    (hf : f (statsRow x) = .ok { statsRow x with supply }) :
    (stats x.symbol.code.raw).modify chain.absent (statsRow x) f s =
      .ok (Function.update s (statsKey x.symbol.code)
        (some ((stats x.symbol.code.raw).row { statsRow x with supply }))) := by
  have hkey : (stats x.symbol.code.raw).rowKey ((stats x.symbol.code.raw).primaryKey
      { statsRow x with supply }) = statsKey x.symbol.code :=
    statsKey_of_row { statsRow x with supply } (congrArg Symbol.code hsymbol)
  rw [← hkey] at hrow ⊢
  exact (stats_fixed _).modify_eq _ hrow hf

theorem withSupply_eq {x : Currency} {supply : Asset} {r : Exec Asset} (h : r = .ok supply) :
    (r >>= fun supply => (pure { statsRow x with supply } : Exec CurrencyStats)) =
      .ok { statsRow x with supply } := by
  simp only [h, ok_bind, pure_eq_ok]

/-- Amounts of a currency fit. -/
theorem supply_le {x : Currency} : (x.supply : Int) ≤ maxAmount := by
  have hle := x.held_le
  have hmax := x.maxSupply_le
  unfold Currency.supply
  omega

theorem statsRow_congr {x x' : Currency} (hsupply : x'.supply = x.supply) (hmax : x'.maxSupply = x.maxSupply)
    (hsymbol : x'.symbol = x.symbol) (hissuer : x'.issuer = x.issuer) : statsRow x' = statsRow x := by
  rw [statsRow, statsRow, hsupply, hmax, hsymbol, hissuer]

/-! ## Rows of accounts -/

/-- An operation on the accounts of a currency that keeps the supply. -/
theorem Holds.update_accounts {s s' : Db.Store} {x x' : Currency} (h : Holds s L)
    (hx : L.currency x.symbol.code = some x) (hsymbol : x'.symbol = x.symbol) (hstats : statsRow x' = statsRow x)
    (hkept : s' (statsKey x.symbol.code) = s (statsKey x.symbol.code))
    (haccounts : ∀ o, s' (accountKey o x.symbol.code) = storedAccount x' o)
    (hframe : ∀ k, (∀ o, k ≠ accountKey o x.symbol.code) → s' k = s k) : Holds s' (L.update x') := by
  refine h.update ?_ (fun o => ?_) fun k _ hk => hframe k fun o => ?_
  · rw [hsymbol, hkept, hstats]
    exact h.stats_at hx
  · rw [hsymbol]
    exact haccounts o
  · rw [← hsymbol]
    exact hk o

/-- One account is written. -/
theorem Holds.write_account {s : Db.Store} {x : Currency} {o : Regid} {v : Option (List UInt8)}
    (h : Holds s L) (x' : Currency) (hx : L.currency x.symbol.code = some x) (hsymbol : x'.symbol = x.symbol)
    (hstats : statsRow x' = statsRow x) (hself : storedAccount x' o = v)
    (hothers : ∀ o', o' ≠ o → storedAccount x' o' = storedAccount x o') :
    Holds (Function.update s (accountKey o x.symbol.code) v) (L.update x') := by
  refine h.update_accounts hx hsymbol hstats
    (Function.update_of_ne (accountKey_ne_statsKey _ _ _).symm _ _) (fun o' => ?_)
    fun k hk => Function.update_of_ne (hk o) _ _
  by_cases ho : o' = o
  · subst ho
    rw [Function.update_self, hself]
  · have hne : accountKey o' x.symbol.code ≠ accountKey o x.symbol.code := fun heq => ho (accountKey_inj heq).1
    rw [Function.update_of_ne hne, h.accounts_at hx, hothers o' ho]

theorem storedAccount_eq {x : Currency} {o : Regid} {symbol : Symbol} {n : Nat} (hmem : o ∈ x.opened)
    (hheld : x.held o = n) (hsymbol : x.symbol = symbol) :
    storedAccount x o = some (balanceRow o symbol n) := by
  subst hheld hsymbol
  exact storedAccount_of_mem hmem

/-- Two accounts are written. -/
theorem Holds.write_accounts {s : Db.Store} {x : Currency} {o₁ o₂ : Regid} {v₁ v₂ : Option (List UInt8)}
    (h : Holds s L) (x' : Currency) (hx : L.currency x.symbol.code = some x) (hsymbol : x'.symbol = x.symbol)
    (hstats : statsRow x' = statsRow x) (hne : o₁ ≠ o₂) (h₁ : storedAccount x' o₁ = v₁)
    (h₂ : storedAccount x' o₂ = v₂)
    (hothers : ∀ o, o ≠ o₁ → o ≠ o₂ → storedAccount x' o = storedAccount x o) :
    Holds (Function.update (Function.update s (accountKey o₁ x.symbol.code) v₁)
      (accountKey o₂ x.symbol.code) v₂) (L.update x') := by
  have hkey : ∀ {o o' : Regid}, o ≠ o' → accountKey o x.symbol.code ≠ accountKey o' x.symbol.code :=
    fun ho heq => ho (accountKey_inj heq).1
  refine h.update_accounts hx hsymbol hstats ?_ (fun o => ?_) fun k hk => ?_
  · have hstatsne : ∀ o, statsKey x.symbol.code ≠ accountKey o x.symbol.code := fun o =>
      (accountKey_ne_statsKey o _ _).symm
    rw [Function.update_of_ne (hstatsne _), Function.update_of_ne (hstatsne _)]
  · by_cases ho₂ : o = o₂
    · subst ho₂
      rw [Function.update_self, h₂]
    rw [Function.update_of_ne (hkey ho₂)]
    by_cases ho₁ : o = o₁
    · subst ho₁
      rw [Function.update_self, h₁]
    rw [Function.update_of_ne (hkey ho₁), h.accounts_at hx, hothers o ho₁ ho₂]
  · rw [Function.update_of_ne (hk o₂), Function.update_of_ne (hk o₁)]

/-! ## Supply -/

theorem sub_amount {m k : Nat} (hm : (m : Int) ≤ maxAmount) (hk : k ≤ m) :
    (amount m).sub (amount k) = some (amount (m - k)) := by
  have hk' : (k : Int) ≤ maxAmount := by omega
  have hrest : ((m - k : Nat) : Int) ≤ maxAmount := by omega
  have hval : (amount m).val - (amount k).val = ((m - k : Nat) : Int) := by
    rw [amount_val hm, amount_val hk']
    omega
  have hrange : SInt.InRange 64 ((amount m).val - (amount k).val) := by
    have hrange' := (amount (m - k)).inRange
    rwa [amount_val hrest, ← hval] at hrange'
  rw [SInt.sub, SInt.ofInt?_of_inRange hrange]
  exact congrArg some (eq_amount hrest hval)

theorem statsRow_of_supply (x x' : Currency) (hmax : x'.maxSupply = x.maxSupply)
    (hsymbol : x'.symbol = x.symbol) (hissuer : x'.issuer = x.issuer) :
    statsRow x' = { statsRow x with supply := ⟨amount x'.supply, x.symbol⟩ } := by
  rw [statsRow, statsRow, hmax, hsymbol, hissuer]

theorem held_le_max (x : Currency) (o : Regid) : (x.held o : Int) ≤ maxAmount := by
  have hle := x.held_le_supply o
  have hsupply := supply_le (x := x)
  omega

theorem statsRow_supply (x : Currency) : (statsRow x).supply.amount.val = x.supply := amount_val supply_le

theorem statsRow_maxSupply (x : Currency) : (statsRow x).maxSupply.amount.val = x.maxSupply :=
  amount_val x.maxSupply_le

theorem withSupply_error {x : Currency} {r : Exec Asset} {e : Stop} (h : r = .error e) :
    (r >>= fun supply => (pure { statsRow x with supply } : Exec CurrencyStats)) = .error e := by
  simp only [h, error_bind]

/-- Who holds something has an account. -/
theorem mem_of_units_le {x : Currency} {o : Regid} (hpos : 0 < quantity.amount.val)
    (hle : units quantity ≤ x.held o) : o ∈ x.opened := by
  by_contra hmem
  have hunits := units_eq hpos
  rw [Currency.held_of_not_mem hmem] at hle
  omega

theorem inRange_of_isValid (h : quantity.isValid = true) : quantity.InRange :=
  isAmountWithinRange_iff.1 (Bool.and_eq_true_iff.1 h).1

theorem isValid_supply (x : Currency) : (statsRow x).supply.isValid = true := by
  rw [statsRow]
  exact isValid_amount supply_le x.symbol_valid

variable {s : Db.Store} {x : Currency}

theorem Holds.stats_ne_none (h : Holds s L) (hx : L.currency x.symbol.code = some x) :
    s (statsKey x.symbol.code) ≠ none := by
  rw [h.stats_at hx]
  exact Option.some_ne_none _

/-- Writing the row of a currency leaves the accounts alone. -/
theorem Holds.account_beside (h : Holds s L) (hx : L.currency x.symbol.code = some x) (o : Regid)
    (v : Option (List UInt8)) :
    Function.update s (statsKey x.symbol.code) v (accountKey o x.symbol.code) = storedAccount x o := by
  rw [Function.update_of_ne (accountKey_ne_statsKey _ _ _), h.accounts_at hx]

/-- `s.supply += quantity`. -/
theorem modify_issue (h : Holds s L) (hx : L.currency x.symbol.code = some x)
    (hpos : 0 < quantity.amount.val) (hsymbol : quantity.symbol = x.symbol)
    (hissue : x.supply + units quantity ≤ x.maxSupply) :
    (stats x.symbol.code.raw).modify chain.absent (statsRow x) (fun s => do
        let supply ← s.supply.addAssign quantity
        pure { s with supply }) s = .ok (Function.update s (statsKey x.symbol.code)
          (some ((stats x.symbol.code.raw).row (statsRow (x.issue (units quantity) hissue))))) := by
  have hunits := units_eq hpos
  have hmax := x.maxSupply_le
  have hsupply := statsRow_supply x
  have hsum : (statsRow x).supply.amount.val + quantity.amount.val =
      ((x.supply + units quantity : Nat) : Int) := by omega
  have hadd : (statsRow x).supply.addAssign quantity = .ok ⟨amount (x.supply + units quantity), x.symbol⟩ :=
    addAssign_eq rfl hsymbol (by omega) hsum
  have hrow : statsRow (x.issue (units quantity) hissue) =
      { statsRow x with supply := ⟨amount (x.supply + units quantity), x.symbol⟩ } := by
    rw [statsRow_of_supply x (x.issue (units quantity) hissue) rfl rfl rfl, Currency.supply_issue]
  rw [hrow]
  exact modify_stats (h.stats_ne_none hx) rfl (withSupply_eq hadd)

/-- `s.supply -= quantity`. -/
theorem modify_retire (h : Holds s L) (hx : L.currency x.symbol.code = some x)
    (hpos : 0 < quantity.amount.val) (hsymbol : quantity.symbol = x.symbol)
    (hle : units quantity ≤ x.held x.issuer) :
    (stats x.symbol.code.raw).modify chain.absent (statsRow x) (fun s => do
        let supply ← s.supply.subAssign quantity
        pure { s with supply }) s = .ok (Function.update s (statsKey x.symbol.code)
          (some ((stats x.symbol.code.raw).row (statsRow (x.retire (units quantity)))))) := by
  have hunits := units_eq hpos
  have hheld := x.held_le_supply x.issuer
  have hmax := supply_le (x := x)
  have hsupply := statsRow_supply x
  have hless : ((x.supply - units quantity : Nat) : Int) ≤ maxAmount := by omega
  have hrest : (statsRow x).supply.amount.val - quantity.amount.val =
      ((x.supply - units quantity : Nat) : Int) := by omega
  have hsub : (statsRow x).supply.subAssign quantity =
      .ok ⟨amount (x.supply - units quantity), x.symbol⟩ := subAssign_eq rfl hsymbol hless hrest
  have hretired : (x.retire (units quantity)).supply = x.supply - units quantity :=
    Nat.eq_sub_of_add_eq (x.supply_retire hle)
  have hrow : statsRow (x.retire (units quantity)) =
      { statsRow x with supply := ⟨amount (x.supply - units quantity), x.symbol⟩ } := by
    rw [statsRow_of_supply x (x.retire (units quantity)) rfl rfl rfl, hretired]
  rw [hrow]
  exact modify_stats (h.stats_ne_none hx) rfl (withSupply_eq hsub)

/-- The rows after an issue. -/
theorem Holds.issue (h : Holds s L) (hx : L.currency x.symbol.code = some x) {q : Nat}
    (hissue : x.supply + q ≤ x.maxSupply) :
    Holds (Function.update (Function.update s (statsKey x.symbol.code)
        (some ((Token.stats x.symbol.code.raw).row (statsRow (x.issue q hissue)))))
      (accountKey x.issuer x.symbol.code) (some (balanceRow x.issuer x.symbol (x.held x.issuer + q))))
      (L.update (x.issue q hissue)) := by
  have hself : storedAccount (x.issue q hissue) x.issuer =
      some (balanceRow x.issuer x.symbol (x.held x.issuer + q)) :=
    storedAccount_eq (Finset.mem_insert_self _ _) (by simp [Currency.issue]) rfl
  have hothers : ∀ o, o ≠ x.issuer → storedAccount (x.issue q hissue) o = storedAccount x o := fun o ho =>
    storedAccount_congr (Finset.mem_insert.trans (or_iff_right ho)) (by simp [Currency.issue, ho]) rfl
  exact h.update_account (x.issue q hissue) hx rfl hself hothers

/-- The rows after a retirement. -/
theorem Holds.retire (h : Holds s L) (hx : L.currency x.symbol.code = some x) {q : Nat}
    (hmem : x.issuer ∈ x.opened) :
    Holds (Function.update (Function.update s (statsKey x.symbol.code)
        (some ((Token.stats x.symbol.code.raw).row (statsRow (x.retire q)))))
      (accountKey x.issuer x.symbol.code) (some (balanceRow x.issuer x.symbol (x.held x.issuer - q))))
      (L.update (x.retire q)) := by
  have hself : storedAccount (x.retire q) x.issuer =
      some (balanceRow x.issuer x.symbol (x.held x.issuer - q)) :=
    storedAccount_eq hmem (by simp [Currency.retire]) rfl
  have hothers : ∀ o, o ≠ x.issuer → storedAccount (x.retire q) o = storedAccount x o := fun o ho =>
    storedAccount_congr Iff.rfl (by simp [Currency.retire, ho]) rfl
  exact h.update_account (x.retire q) hx rfl hself hothers

/-- The rows after a transfer. -/
theorem Holds.transfer {source target : Regid} {q : Nat} (h : Holds s L)
    (hx : L.currency x.symbol.code = some x) (hne : source ≠ target) (hmem : source ∈ x.opened)
    (hle : q ≤ x.held source) :
    Holds (Function.update (Function.update s (accountKey source x.symbol.code)
        (some (balanceRow source x.symbol (x.held source - q))))
      (accountKey target x.symbol.code) (some (balanceRow target x.symbol (x.held target + q))))
      (L.update (x.transfer source target q hle)) := by
  have hstats : statsRow (x.transfer source target q hle) = statsRow x :=
    statsRow_congr (x.supply_transfer hle) rfl rfl rfl
  have hsource : storedAccount (x.transfer source target q hle) source =
      some (balanceRow source x.symbol (x.held source - q)) :=
    storedAccount_eq (Finset.mem_insert_of_mem hmem) (by simp [Currency.transfer, hne.symm]) rfl
  have htarget : storedAccount (x.transfer source target q hle) target =
      some (balanceRow target x.symbol (x.held target + q)) :=
    storedAccount_eq (Finset.mem_insert_self _ _) (by simp [Currency.transfer, hne]) rfl
  have hothers : ∀ o, o ≠ source → o ≠ target →
      storedAccount (x.transfer source target q hle) o = storedAccount x o := fun o hs ht =>
    storedAccount_congr (Finset.mem_insert.trans (or_iff_right ht))
      (by simp [Currency.transfer, hs, ht]) rfl
  exact h.write_accounts (x.transfer source target q hle) hx rfl hstats hne hsource htarget hothers

end Wasmlib.Token
