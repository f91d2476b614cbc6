import WasmCdt.Contracts.Ledger

/-!
# Who can change a ledger

What an action does to a currency needs somebody's signature: only its owner's makes a balance less or
closes an account, only the issuer's changes the supply, and the symbol, the issuer and the maximum stay.
-/

namespace Wasmlib

namespace Currency

/-! ## Supplies -/

theorem supply_issue (x : Currency) (q : Nat) (h : x.supply + q ≤ x.maxSupply) :
    (x.issue q h).supply = x.supply + q := by
  rw [supply, issue, map_add, Finsupp.degree_single]
  rfl

theorem supply_retire (x : Currency) {q : Nat} (h : q ≤ x.held x.issuer) :
    (x.retire q).supply + q = x.supply := degree_sub_single h

theorem supply_transfer (x : Currency) {source target : Regid} {q : Nat} (h : q ≤ x.held source) :
    (x.transfer source target q h).supply = x.supply := by
  rw [supply, transfer, map_add, Finsupp.degree_single, degree_sub_single h]
  rfl

theorem held_le_supply (x : Currency) (o : Regid) : x.held o ≤ x.supply := Finsupp.le_degree o x.held

/-- Who has no account holds nothing. -/
theorem held_of_not_mem {x : Currency} {o : Regid} (h : o ∉ x.opened) : x.held o = 0 :=
  Finsupp.notMem_support_iff.1 fun hmem => h (x.held_opened hmem)

/-! ## Signatures -/

/-- `x'` is what has become of `x`, with no more signatures than those of `signers`. -/
structure Evolves (signers : Set Regid) (x x' : Currency) : Prop where
  symbol : x'.symbol = x.symbol
  issuer : x'.issuer = x.issuer
  maxSupply : x'.maxSupply = x.maxSupply
  supply : x.issuer ∉ signers → x'.supply = x.supply
  opened : ∀ o ∉ signers, o ∈ x.opened → o ∈ x'.opened
  held : ∀ o ∉ signers, x.held o ≤ x'.held o

namespace Evolves

variable {signers : Set Regid} {x x' x'' : Currency}

theorem refl (signers : Set Regid) (x : Currency) : x.Evolves signers x :=
  ⟨rfl, rfl, rfl, fun _ => rfl, fun _ _ h => h, fun _ _ => le_rfl⟩

theorem trans (h : x.Evolves signers x') (h' : x'.Evolves signers x'') : x.Evolves signers x'' where
  symbol := h'.symbol.trans h.symbol
  issuer := h'.issuer.trans h.issuer
  maxSupply := h'.maxSupply.trans h.maxSupply
  supply hissuer := (h'.supply (by rwa [h.issuer])).trans (h.supply hissuer)
  opened o ho hmem := h'.opened o ho (h.opened o ho hmem)
  held o ho := (h.held o ho).trans (h'.held o ho)

theorem issue {q : Nat} (hsigned : x.issuer ∈ signers) (h : x.supply + q ≤ x.maxSupply) :
    x.Evolves signers (x.issue q h) where
  symbol := rfl
  issuer := rfl
  maxSupply := rfl
  supply hissuer := absurd hsigned hissuer
  opened _ _ hmem := Finset.mem_insert_of_mem hmem
  held o _ := Nat.le_add_right (x.held o) _

theorem retire (hsigned : x.issuer ∈ signers) (q : Nat) : x.Evolves signers (x.retire q) where
  symbol := rfl
  issuer := rfl
  maxSupply := rfl
  supply hissuer := absurd hsigned hissuer
  opened _ _ hmem := hmem
  held o ho := by
    have hne : o ≠ x.issuer := fun heq => ho (heq ▸ hsigned)
    simp [Currency.retire, hne]

theorem transfer {source target : Regid} {q : Nat} (hsigned : source ∈ signers) (h : q ≤ x.held source) :
    x.Evolves signers (x.transfer source target q h) where
  symbol := rfl
  issuer := rfl
  maxSupply := rfl
  supply _ := supply_transfer x h
  opened _ _ hmem := Finset.mem_insert_of_mem hmem
  held o ho := by
    have hne : o ≠ source := fun heq => ho (heq ▸ hsigned)
    simp [Currency.transfer, hne]

theorem openAccount (owner : Regid) : x.Evolves signers (x.openAccount owner) where
  symbol := rfl
  issuer := rfl
  maxSupply := rfl
  supply _ := rfl
  opened _ _ hmem := Finset.mem_insert_of_mem hmem
  held _ _ := le_rfl

theorem closeAccount {owner : Regid} (hsigned : owner ∈ signers) (h : x.held owner = 0) :
    x.Evolves signers (x.closeAccount owner h) where
  symbol := rfl
  issuer := rfl
  maxSupply := rfl
  supply _ := rfl
  opened _ ho hmem := Finset.mem_erase.2 ⟨fun heq => ho (heq ▸ hsigned), hmem⟩
  held _ _ := le_rfl

end Evolves

end Currency

namespace Ledger

/-- `L'` is what has become of `L`. -/
structure Evolves (signers : Set Regid) (L L' : Ledger) : Prop where
  kept : ∀ c x, L.currency c = some x → ∃ x', L'.currency c = some x' ∧ x.Evolves signers x'
  created : ∀ c x', L.currency c = none → L'.currency c = some x' → x'.issuer ∈ signers

namespace Evolves

variable {signers signers' : Set Regid} {L L' L'' : Ledger} {x x' : Currency}

theorem refl (signers : Set Regid) (L : Ledger) : L.Evolves signers L where
  kept _ x hx := ⟨x, hx, .refl _ x⟩
  created _ _ hnone hsome := by cases hnone.symm.trans hsome

theorem trans (h : L.Evolves signers L') (h' : L'.Evolves signers L'') : L.Evolves signers L'' where
  kept c x hx := by
    obtain ⟨x', hx', hevolves⟩ := h.kept c x hx
    obtain ⟨x'', hx'', hevolves'⟩ := h'.kept c x' hx'
    exact ⟨x'', hx'', hevolves.trans hevolves'⟩
  created c x'' hnone hsome := by
    cases hmid : L'.currency c with
    | none => exact h'.created c x'' hmid hsome
    | some x' =>
      obtain ⟨y, hy, hevolves⟩ := h'.kept c x' hmid
      obtain rfl : x'' = y := Option.some.inj (hsome.symm.trans hy)
      rw [hevolves.issuer]
      exact h.created c x' hnone hmid

/-- More signatures allow more. -/
theorem mono (h : L.Evolves signers L') (hsub : signers ⊆ signers') : L.Evolves signers' L' where
  kept c x hx := by
    obtain ⟨x', hx', hevolves⟩ := h.kept c x hx
    have hout : ∀ {o : Regid}, o ∉ signers' → o ∉ signers := fun ho hmem => ho (hsub hmem)
    exact ⟨x', hx', { hevolves with
      supply := fun hissuer => hevolves.supply (hout hissuer)
      opened := fun o ho => hevolves.opened o (hout ho)
      held := fun o ho => hevolves.held o (hout ho) }⟩
  created c x' hnone hsome := hsub (h.created c x' hnone hsome)

theorem update (hx : L.currency x.symbol.code = some x) (h : x.Evolves signers x') :
    L.Evolves signers (L.update x') where
  kept c y hy := by
    by_cases hc : c = x'.symbol.code
    · subst hc
      rw [h.symbol, hx, Option.some.injEq] at hy
      subst hy
      exact ⟨x', L.update_self x', h⟩
    · exact ⟨y, by rw [L.update_of_ne x' hc, hy], .refl _ y⟩
  created c y hnone hsome := by
    have hc : c ≠ x'.symbol.code := by
      rintro rfl
      rw [h.symbol, hx] at hnone
      cases hnone
    rw [L.update_of_ne x' hc, hnone] at hsome
    cases hsome

/-- A currency of a new symbol code. -/
theorem insert (hnone : L.currency x.symbol.code = none) (hsigned : x.issuer ∈ signers) :
    L.Evolves signers (L.update x) where
  kept c y hy := by
    have hc : c ≠ x.symbol.code := by
      rintro rfl
      cases hnone.symm.trans hy
    exact ⟨y, by rw [L.update_of_ne x hc, hy], .refl _ y⟩
  created c y hnone' hsome := by
    by_cases hc : c = x.symbol.code
    · subst hc
      rw [L.update_self, Option.some.injEq] at hsome
      exact hsome ▸ hsigned
    · rw [L.update_of_ne x hc, hnone'] at hsome
      cases hsome

end Evolves

variable {L L' : Ledger} {chain : Token.Chain} {self : Regid}

/-- An operation on a currency that is accepted under a condition. -/
theorem of_bind_dite {c : SymbolCode} {C : Currency → Prop} {_ : ∀ x, Decidable (C x)}
    {g : ∀ x, C x → Ledger}
    (h : ((L.currency c).bind fun x => if hc : C x then some (g x hc) else none) = some L') :
    ∃ x, ∃ hc : C x, L.currency x.symbol.code = some x ∧ L' = g x hc := by
  obtain ⟨x, hx, hsome⟩ := Option.bind_eq_some_iff.1 h
  by_cases hc : C x
  · rw [dif_pos hc, Option.some.injEq] at hsome
    rw [← L.code_eq c x hx] at hx
    exact ⟨x, hc, hx, hsome.symm⟩
  · rw [dif_neg hc] at hsome
    cases hsome

/-- **No action does what its signers cannot allow.** -/
theorem act_evolves {a : Token.Action} (h : L.act chain self a = some L') :
    L.Evolves {o | chain.hasAuth o = true} L' := by
  cases a with
  | create issuer maximumSupply =>
    obtain ⟨hc, hsome⟩ := Option.dite_none_right_eq_some.1 h
    rw [← Option.some.inj hsome]
    exact .insert hc.2.2.2.2 hc.1
  | issue toAccount quantity memo =>
    obtain ⟨x, hc, hx, rfl⟩ := of_bind_dite h
    exact .update hx (.issue hc.1 hc.2.2.2)
  | retire quantity memo =>
    obtain ⟨x, hc, hx, rfl⟩ := of_bind_dite h
    exact .update hx (.retire hc.1 _)
  | transfer fromAccount toAccount quantity memo =>
    obtain ⟨x, hc, hx, rfl⟩ := of_bind_dite h
    exact .update hx (.transfer hc.2.1 hc.2.2.2.2.2)
  | openAccount owner symbol payer =>
    obtain ⟨x, hc, hx, rfl⟩ := of_bind_dite h
    exact .update hx (.openAccount owner)
  | closeAccount owner symbol =>
    obtain ⟨x, hc, hx, rfl⟩ := of_bind_dite h
    exact .update hx (.closeAccount hc.1 hc.2.2)
  | balanceOf owner symbol =>
    obtain ⟨-, -, rfl⟩ := Option.map_eq_some_iff.1 h
    exact .refl _ _

end Ledger

end Wasmlib
