import WasmCdt.Contracts.Proof.Token

/-!
# Runs of the token contract

Any calls, with any arguments and signatures, one after the other:

* `run_backed`: the supply of a currency is what its accounts hold together.
* `run_kept`: nothing is taken from an account without its owner's signature.
* `issue_sends`: the transaction that `issue` sends is the transfer to the receiver.
-/

namespace Wasmlib.Token

open Scoped

/-! ## Calls -/

section

variable {self : Regid} {s : Db.Store} {L : Ledger}

/-- A call is an action with the arguments that are read, or fails. -/
theorem apply_cases (self : Regid) (chain : Chain) (action : BitVec (8 * 8)) (data : List UInt8) (w : World) :
    (∃ e, apply chain self action data w = .error e) ∨
      ∃ a : Action, apply chain self action data w = a.exec chain self w := by
  rw [apply]
  cases hfind : entries.find? fun e => Name.ofString e.name.toList = .ok ⟨action⟩ with
  | none => exact .inl ⟨_, rfl⟩
  | some e =>
    have hmem : e ∈ entries := List.mem_of_find?_eq_some hfind
    dsimp only
    cases hargs : e.params.extract (.start data) with
    | error => exact .inl ⟨_, rfl⟩
    | ok r =>
      obtain ⟨args, rest⟩ := r
      rw [ok_bind]
      refine .inr ?_
      simp only [entries, List.mem_cons, List.not_mem_nil, or_false] at hmem
      obtain rfl | rfl | rfl | rfl | rfl | rfl | rfl := hmem
      · exact ⟨.create _ _, rfl⟩
      · exact ⟨.issue _ _ _, rfl⟩
      · exact ⟨.retire _ _, rfl⟩
      · exact ⟨.transfer _ _ _ _, rfl⟩
      · exact ⟨.openAccount _ _ _, rfl⟩
      · exact ⟨.closeAccount _ _, rfl⟩
      · exact ⟨.balanceOf (Class.regid.ofMembers args.1) ⟨args.2.1⟩, rfl⟩

theorem step_evolves (h : Holds s L) (call : Call) :
    ∃ L', Holds (call.step self s) L' ∧ L.Evolves {o | call.chain.hasAuth o = true} L' := by
  rw [Call.step]
  obtain ⟨e, hrun⟩ | ⟨a, hrun⟩ := apply_cases self call.chain call.action call.data ⟨s, []⟩
  · rw [hrun]
    exact ⟨L, h, .refl _ L⟩
  · rw [hrun]
    have hrefines : Refines (a.exec call.chain self ⟨s, []⟩) (L.act call.chain self a) :=
      exec_refines (w := ⟨s, []⟩) h a
    cases hact : L.act call.chain self a with
    | none =>
      rw [hact] at hrefines
      obtain ⟨msg, hrefused⟩ := hrefines
      rw [hrefused]
      exact ⟨L, h, .refl _ L⟩
    | some L' =>
      rw [hact] at hrefines
      obtain ⟨w', hdone, hholds⟩ := hrefines
      rw [hdone]
      exact ⟨L', hholds, Ledger.act_evolves hact⟩

/-- **What a run does to the ledger has been signed for.** -/
theorem run_evolves (self : Regid) (signers : Set Regid) (calls : List Call) (h : Holds s L)
    (hsigners : ∀ call ∈ calls, ∀ o, call.chain.hasAuth o = true → o ∈ signers) :
    ∃ L', Holds (run self calls s) L' ∧ L.Evolves signers L' := by
  induction calls generalizing s L with
  | nil => exact ⟨L, h, .refl _ L⟩
  | cons call calls ih =>
    obtain ⟨L₁, hstep, hevolves⟩ := step_evolves h call
    obtain ⟨L₂, hrun, hevolves'⟩ := ih hstep fun c hc => hsigners c (List.mem_cons_of_mem _ hc)
    exact ⟨L₂, hrun, (hevolves.mono (hsigners call List.mem_cons_self)).trans hevolves'⟩

/-- A store that calls can reach holds a ledger. -/
theorem run_holds (self : Regid) (calls : List Call) : ∃ L, Holds (run self calls fun _ => none) L := by
  obtain ⟨L, hholds, -⟩ := run_evolves self Set.univ calls holds_empty
    fun _ _ _ _ => trivial
  exact ⟨L, hholds⟩

end

/-! ## What the rows say -/

section

variable {self : Regid} {s : Db.Store} {L : Ledger} {x : Currency}

/-- The object of an account, if it is open. -/
def openedRow (x : Currency) (o : Regid) : Option Account :=
  if o ∈ x.opened then some (accountRow x o) else none

theorem Holds.getAccount (h : Holds s L) (o : Regid) (c : SymbolCode) :
    (Token.accounts o).get c.raw s = .ok ((L.currency c).bind fun x => openedRow x o) := by
  have hrow := h.accounts o c
  cases hx : L.currency c with
  | none =>
    rw [hx] at hrow
    exact (accounts_fixed o).get_of_none hrow
  | some x =>
    rw [hx, Option.bind_some] at hrow
    rw [Option.bind_some, openedRow]
    by_cases hmem : o ∈ x.opened
    · rw [if_pos hmem]
      exact (accounts_fixed o).get_of_row (hrow.trans (storedAccount_of_mem hmem))
    · rw [if_neg hmem]
      exact (accounts_fixed o).get_of_none (hrow.trans (storedAccount_of_not_mem hmem))

theorem openedRow_eq_some {o : Regid} {a : Account} :
    openedRow x o = some a ↔ o ∈ x.opened ∧ accountRow x o = a := by
  rw [openedRow, Option.ite_none_right_eq_some, Option.some.injEq]

theorem openedRow_eq_none {o : Regid} : openedRow x o = none ↔ o ∉ x.opened := by
  rw [openedRow, ite_eq_right_iff, imp_iff_not (Option.some_ne_none _)]

theorem accountRow_val (x : Currency) (o : Regid) : (accountRow x o).balance.amount.val = x.held o :=
  amount_val (held_le_max x o)

/-- The amount of a row, if there is one. -/
def amountOf (row : Option Account) : Int := row.elim 0 fun a => a.balance.amount.val

theorem amountOf_some (a : Account) : amountOf (some a) = a.balance.amount.val := rfl

theorem amountOf_openedRow (x : Currency) (o : Regid) : amountOf (openedRow x o) = x.held o := by
  by_cases hmem : o ∈ x.opened
  · rw [openedRow, if_pos hmem, amountOf_some, accountRow_val]
  · rw [openedRow, if_neg hmem, Currency.held_of_not_mem hmem]
    rfl

/-- The row of a currency and those of its accounts: together the accounts hold the supply. -/
structure Backed (st : CurrencyStats) (row : Regid → Option Account) (owners : Finset Regid) : Prop where
  opened : ∀ o, o ∈ owners ↔ row o ≠ none
  balance : ∀ o a, row o = some a →
    a.owner = o ∧ a.balance.symbol = st.supply.symbol ∧ 0 ≤ a.balance.amount.val
  supply : st.supply.amount.val = ∑ o ∈ owners, amountOf (row o)
  supply_le : st.supply.amount.val ≤ st.maxSupply.amount.val
  maxSupply : st.maxSupply.isValid = true ∧ st.maxSupply.symbol = st.supply.symbol

theorem openedRow_balance {o : Regid} {a : Account} (h : openedRow x o = some a) :
    a.owner = o ∧ a.balance.symbol = x.symbol ∧ 0 ≤ a.balance.amount.val := by
  obtain ⟨-, rfl⟩ := openedRow_eq_some.1 h
  refine ⟨rfl, rfl, ?_⟩
  rw [accountRow_val]
  exact Int.natCast_nonneg _

theorem supply_eq_sum (x : Currency) :
    (statsRow x).supply.amount.val = ∑ o ∈ x.opened, amountOf (openedRow x o) := by
  have hsum : x.supply = ∑ o ∈ x.opened, x.held o :=
    Finset.sum_subset x.held_opened fun o _ ho => Finsupp.notMem_support_iff.1 ho
  rw [statsRow_supply, hsum, Nat.cast_sum]
  exact Finset.sum_congr rfl fun o _ => (amountOf_openedRow x o).symm

theorem supply_le_maxSupply (x : Currency) :
    (statsRow x).supply.amount.val ≤ (statsRow x).maxSupply.amount.val := by
  rw [statsRow_supply, statsRow_maxSupply]
  exact_mod_cast x.held_le

theorem isValid_maxSupply (x : Currency) : (statsRow x).maxSupply.isValid = true := by
  rw [statsRow]
  exact isValid_amount x.maxSupply_le x.symbol_valid

theorem backed (x : Currency) : Backed (statsRow x) (openedRow x) x.opened where
  opened o := by rw [Ne, openedRow_eq_none, not_not]
  balance _ _ h := openedRow_balance h
  supply := supply_eq_sum x
  supply_le := supply_le_maxSupply x
  maxSupply := ⟨isValid_maxSupply x, rfl⟩

/-- **The supply is what the accounts hold**, in every store that calls can reach: a symbol code without
a currency has no accounts, and for one with a currency the amounts of all accounts sum up to the supply in
its row. -/
theorem run_backed (self : Regid) (calls : List Call) (c : SymbolCode) :
    ∃ (st : Option CurrencyStats) (row : Regid → Option Account),
      (stats c.raw).get c.raw (run self calls fun _ => none) = .ok st ∧
      (∀ o, (accounts o).get c.raw (run self calls fun _ => none) = .ok (row o)) ∧
      match st with
      | none => ∀ o, row o = none
      | some st => st.supply.symbol.code = c ∧ ∃ owners, Backed st row owners := by
  obtain ⟨L, h⟩ := run_holds self calls
  refine ⟨_, _, h.getStats c, fun o => h.getAccount o c, ?_⟩
  cases hx : L.currency c with
  | none => exact fun _ => rfl
  | some x => exact ⟨L.code_eq c x hx, x.opened, backed x⟩

theorem run_append (self : Regid) (before after : List Call) (s : Db.Store) :
    run self (before ++ after) s = run self after (run self before s) := List.foldl_append

/-- **Nothing is taken from who does not sign**: in a run without the signature of `o`, the account of
`o` is kept and holds no less; and the issuer, the maximum and the symbol of a currency are kept in any
run, the supply too where `o` is the issuer. -/
theorem run_kept (self : Regid) (before after : List Call) (o : Regid) (c : SymbolCode)
    (hunsigned : ∀ call ∈ after, call.chain.hasAuth o = false) :
    (∀ a, (accounts o).get c.raw (run self before fun _ => none) = .ok (some a) →
      ∃ a', (accounts o).get c.raw (run self (before ++ after) fun _ => none) = .ok (some a') ∧
        a'.balance.symbol = a.balance.symbol ∧ a.balance.amount.val ≤ a'.balance.amount.val) ∧
    ∀ st, (stats c.raw).get c.raw (run self before fun _ => none) = .ok (some st) →
      ∃ st', (stats c.raw).get c.raw (run self (before ++ after) fun _ => none) = .ok (some st') ∧
        st'.supply.symbol = st.supply.symbol ∧ st'.maxSupply = st.maxSupply ∧ st'.issuer = st.issuer ∧
        (st.issuer = o → st'.supply = st.supply) := by
  obtain ⟨L, h⟩ := run_holds self before
  have hsigners : ∀ call ∈ after, ∀ o', call.chain.hasAuth o' = true → o' ∈ {o' | o' ≠ o} := by
    rintro call hmem o' hauth rfl
    cases hauth.symm.trans (hunsigned call hmem)
  obtain ⟨L', h', hevolves⟩ := run_evolves self _ after h hsigners
  rw [← run_append] at h'
  have ho : o ∉ {o' | o' ≠ o} := fun hne => hne rfl
  refine ⟨fun a ha => ?_, fun st hst => ?_⟩
  · rw [h.getAccount, Except.ok.injEq] at ha
    obtain ⟨x, hx, hrow⟩ := Option.bind_eq_some_iff.1 ha
    obtain ⟨hmem, rfl⟩ := openedRow_eq_some.1 hrow
    obtain ⟨x', hx', hx''⟩ := hevolves.kept c x hx
    refine ⟨accountRow x' o, ?_, hx''.symbol, ?_⟩
    · rw [h'.getAccount, hx', Option.bind_some, openedRow_eq_some.2 ⟨hx''.opened o ho hmem, rfl⟩]
    · rw [accountRow_val, accountRow_val]
      exact_mod_cast hx''.held o ho
  · rw [h.getStats, Except.ok.injEq] at hst
    obtain ⟨x, hx, rfl⟩ := Option.map_eq_some_iff.1 hst
    obtain ⟨x', hx', hx''⟩ := hevolves.kept c x hx
    refine ⟨statsRow x', ?_, hx''.symbol, ?_, hx''.issuer, fun hissuer => ?_⟩
    · rw [h'.getStats, hx', Option.map_some]
    · rw [statsRow, statsRow, hx''.maxSupply, hx''.symbol]
    · have hout : x.issuer ∉ {o' | o' ≠ o} := fun hne => hne hissuer
      rw [statsRow, statsRow, hx''.supply hout, hx''.symbol]

end

def sampleCreate : Call where
  chain := sampleChain 7
  action := (Name.literal "create").value
  data := littleEndian 8 7 ++ littleEndian 8 1000 ++ littleEndian 8 0x4343495708

def sampleIssue : Call where
  chain := sampleChain 7
  action := (Name.literal "issue").value
  data := littleEndian 8 9 ++ littleEndian 8 100 ++ littleEndian 8 0x4343495708 ++ [0]

/-- An attempt of 8 on the balance of 7. -/
def sampleTheft : Call where
  chain := sampleChain 8
  action := (Name.literal "transfer").value
  data := littleEndian 8 7 ++ littleEndian 8 8 ++ littleEndian 8 40 ++ littleEndian 8 0x4343495708 ++ [0]

theorem run_kept_sample : ∃ a', (accounts ⟨7⟩).get sampleSymbol.code.raw
      (run ⟨1⟩ ([sampleCreate, sampleIssue] ++ [sampleTheft]) fun _ => none) = .ok (some a') ∧
    a'.balance.symbol = sampleSymbol ∧ 100 ≤ a'.balance.amount.val :=
  (run_kept ⟨1⟩ [sampleCreate, sampleIssue] [sampleTheft] ⟨7⟩ sampleSymbol.code (by decide)).1
    ⟨⟨7⟩, sampleAsset ⟨100, by decide⟩⟩ (by decide +kernel)

/-! ## Inline transactions -/

section

variable {chain : Chain} {self : Regid} {quantity : Asset} {memo : List UInt8}

theorem of_check {p : Bool} {msg : String} {u : Unit} (h : check p msg = .ok u) : p = true := by
  cases p with
  | true => rfl
  | false => cases h

theorem World.onDb_inline {w w' : World} {f : Db.Store → Exec Db.Store} (h : w.onDb f = .ok w') :
    w'.inline = w.inline := by
  rw [World.onDb] at h
  cases hf : f w.db with
  | error e =>
    rw [hf] at h
    cases h
  | ok db =>
    rw [hf] at h
    cases h
    rfl

/-- **What `issue` sends is the transfer to the receiver**: one inline transaction, unless the issuer is
the receiver, that the issuer authorizes and that the contract's `apply` takes for the transfer of the
quantity, with the memo, from the issuer. -/
theorem issue_sends {toAccount : Regid} {w w' : World}
    (hrun : issue chain self toAccount quantity memo w = .ok w') :
    ∃ st, (stats quantity.symbol.code.raw).get quantity.symbol.code.raw w.db = .ok (some st) ∧
      (toAccount = st.issuer → w'.inline = w.inline) ∧
      (toAccount ≠ st.issuer → ∃ bytes t, w'.inline = w.inline ++ [bytes] ∧
        Class.transaction.ty.unpack bytes = .ok (Class.transaction.members t) ∧ t.account = self ∧
        t.authorization = [⟨st.issuer, .literal "wasmio_owner"⟩] ∧
        ∀ chain' v, apply chain' t.account t.name.value t.data v =
          transfer chain' st.issuer toAccount quantity memo v) := by
  obtain ⟨_, -, hrun⟩ := bind_eq_ok hrun
  obtain ⟨_, hcheck, hrun⟩ := bind_eq_ok hrun
  have hmemo : memo.length ≤ 256 := of_decide_eq_true (of_check hcheck)
  obtain ⟨row, hget, hrun⟩ := bind_eq_ok hrun
  cases row with
  | none => cases hrun
  | some st =>
    obtain ⟨_, -, hrun⟩ := bind_eq_ok hrun
    obtain ⟨_, -, hrun⟩ := bind_eq_ok hrun
    obtain ⟨_, -, hrun⟩ := bind_eq_ok hrun
    obtain ⟨_, -, hrun⟩ := bind_eq_ok hrun
    obtain ⟨_, -, hrun⟩ := bind_eq_ok hrun
    obtain ⟨_, -, hrun⟩ := bind_eq_ok hrun
    obtain ⟨w₁, hstats, hrun⟩ := bind_eq_ok hrun
    obtain ⟨w₂, hadd, hrun⟩ := bind_eq_ok hrun
    have hinline : w₂.inline = w.inline :=
      (World.onDb_inline hadd).trans (World.onDb_inline hstats)
    refine ⟨st, hget, fun hto => ?_, fun hto => ?_⟩
    · rw [if_neg (not_not.2 hto), pure_eq_ok, Except.ok.injEq] at hrun
      rw [← hrun, hinline]
    · rw [if_pos hto, send_transfer _ _ _ _ hmemo, Except.ok.injEq] at hrun
      refine ⟨_, inlineTransfer self st.issuer toAccount quantity memo, ?_,
        (inlineTransfer_packs st.issuer toAccount quantity hmemo).unpack_eq, rfl, rfl,
        fun chain' v => apply_transfer st.issuer toAccount quantity hmemo v⟩
      rw [← hrun, hinline]

end

theorem exists_of_isOk {r : Exec World} (h : r.isOk = true) : ∃ w', r = .ok w' := by
  cases r with
  | ok w' => exact ⟨w', rfl⟩
  | error => cases h

theorem issue_sends_sample : ∃ w', issue (sampleChain 7) ⟨1⟩ ⟨9⟩ (sampleAsset ⟨100, by decide⟩) []
      ⟨run ⟨1⟩ [sampleCreate] fun _ => none, []⟩ = .ok w' ∧
    ∃ bytes t, w'.inline = [bytes] ∧ Class.transaction.ty.unpack bytes = .ok (Class.transaction.members t) ∧
      ∀ chain' v, apply chain' t.account t.name.value t.data v =
        transfer chain' ⟨7⟩ ⟨9⟩ (sampleAsset ⟨100, by decide⟩) [] v := by
  have hok : (issue (sampleChain 7) ⟨1⟩ ⟨9⟩ (sampleAsset ⟨100, by decide⟩) []
      ⟨run ⟨1⟩ [sampleCreate] fun _ => none, []⟩).isOk = true := by decide +kernel
  obtain ⟨w', hrun⟩ := exists_of_isOk hok
  obtain ⟨st, hget, -, hsends⟩ := issue_sends hrun
  have hrow : (stats sampleSymbol.code.raw).get sampleSymbol.code.raw (run ⟨1⟩ [sampleCreate] fun _ => none) =
      .ok (some ⟨sampleAsset ⟨0, by decide⟩, sampleAsset ⟨1000, by decide⟩, ⟨7⟩⟩) := by decide +kernel
  obtain rfl := Option.some.inj (Except.ok.inj (hget.symm.trans hrow))
  obtain ⟨bytes, t, hinline, hunpack, -, -, happly⟩ := hsends (by decide)
  exact ⟨w', hrun, bytes, t, hinline, hunpack, happly⟩

end Wasmlib.Token
