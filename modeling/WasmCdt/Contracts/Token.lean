import WasmCdt.Contracts.Classes

/-!
# The token contract

`examples/V4/token`: currencies, each with a bounded supply, and the accounts that hold them. All of it is
rows of two scoped tables. What the contract asks of the chain is a parameter; who pays for a row, what is
logged and who is notified is left out.
-/

namespace Wasmlib

/-- `operator""_n`, for a name that the compiler accepts. -/
def Name.literal (str : String) : Name := (Name.ofString str.toList).toOption.getD ⟨0⟩

/-! ## Inline transactions -/

/-- `permission` (`contracts/inline_transaction.hpp`). -/
structure Permission where
  account : Regid
  perm : Name
  deriving DecidableEq

/-- `transaction`. -/
structure Transaction where
  account : Regid
  name : Name
  authorization : List Permission
  data : List UInt8
  deriving DecidableEq

namespace Class

def name : Class Name where
  Members := BitVec (8 * 8) × Unit
  ty := .struct (.cons (.int 8) .nil) (0, ())
  members n := (n.value, ())
  ofMembers m := ⟨m.1⟩
  ofMembers_members _ := rfl

def permission : Class Permission where
  Members := regid.Members × name.Members × Unit
  ty := .struct (.cons regid.ty (.cons name.ty .nil)) ((0, ()), (0, ()), ())
  members p := (regid.members p.account, name.members p.perm, ())
  ofMembers m := ⟨regid.ofMembers m.1, name.ofMembers m.2.1⟩
  ofMembers_members _ := rfl

def transaction : Class Transaction where
  Members := regid.Members × name.Members × List permission.Members × List UInt8 × Unit
  ty := .struct (.cons regid.ty (.cons name.ty (.cons (.vector permission.ty)
    (.cons .charVector .nil)))) ((0, ()), (0, ()), [], [], ())
  members t := (regid.members t.account, name.members t.name,
    t.authorization.map permission.members, t.data, ())
  ofMembers m := ⟨regid.ofMembers m.1, name.ofMembers m.2.1, m.2.2.1.map permission.ofMembers, m.2.2.2.1⟩
  ofMembers_members t := by
    cases t
    simp [Function.comp_def, permission, regid, name]

end Class

namespace Token

open Scoped

/-! ## The chain -/

/-- What the contract asks of the chain in the course of one action. -/
structure Chain where
  hasAuth : Regid → Bool
  isAccount : Regid → Bool
  getMaintainer : Regid → Regid
  /-- What `require_auth` aborts with. -/
  unauthorized : Regid → String
  /-- What `db_update` does with a key that is not there. -/
  absent : OnAbsent

def Chain.requireAuth (chain : Chain) (n : Regid) : Exec Unit := check (chain.hasAuth n) (chain.unauthorized n)

/-- What an action leaves: the store, and the transactions that were given to `send_inline`, packed. -/
structure World where
  db : Db.Store
  inline : List (List UInt8)

/-- An operation on the store. -/
def World.onDb (w : World) (f : Db.Store → Exec Db.Store) : Exec World := do
  let db ← f w.db
  pure { w with db }

/-- `transaction::send`. -/
def World.send (w : World) (t : Transaction) : Exec World := do
  let serialize ← Class.transaction.ty.pack (Class.transaction.members t)
  pure { w with inline := w.inline ++ [serialize] }

/-! ## Tables -/

structure Account where
  owner : Regid
  balance : Asset
  deriving DecidableEq

def Account.primaryKey (a : Account) : BitVec (8 * 8) := a.balance.symbol.code.raw

structure CurrencyStats where
  supply : Asset
  maxSupply : Asset
  issuer : Regid
  deriving DecidableEq

def CurrencyStats.primaryKey (st : CurrencyStats) : BitVec (8 * 8) := st.supply.symbol.code.raw

def accountClass : Class Account where
  Members := Class.regid.Members × Class.asset.Members × Unit
  ty := .struct (.cons Class.regid.ty (.cons Class.asset.ty .nil)) ((0, ()), (0, 0, ()), ())
  members a := (Class.regid.members a.owner, Class.asset.members a.balance, ())
  ofMembers m := ⟨Class.regid.ofMembers m.1, Class.asset.ofMembers m.2.1⟩
  ofMembers_members a := by rw [Class.ofMembers_members, Class.ofMembers_members]

def currencyStatsClass : Class CurrencyStats where
  Members := Class.asset.Members × Class.asset.Members × Class.regid.Members × Unit
  ty := .struct (.cons Class.asset.ty (.cons Class.asset.ty (.cons Class.regid.ty .nil)))
    ((0, 0, ()), (0, 0, ()), (0, ()), ())
  members st := (Class.asset.members st.supply, Class.asset.members st.maxSupply,
    Class.regid.members st.issuer, ())
  ofMembers m := ⟨Class.asset.ofMembers m.1, Class.asset.ofMembers m.2.1, Class.regid.ofMembers m.2.2.1⟩
  ofMembers_members st := by simp only [Class.ofMembers_members]

/-- `accounts( _self, owner.value )`. -/
def accounts (owner : Regid) : ClassTable Account (BitVec (8 * 8)) where
  tableName := .literal "accounts"
  scope := owner.value
  cls := accountClass
  primary := .int 8
  primaryKey := Account.primaryKey

/-- `stats( _self, sym_code_raw )`. -/
def stats (symCodeRaw : BitVec (8 * 8)) : ClassTable CurrencyStats (BitVec (8 * 8)) where
  tableName := .literal "stat"
  scope := symCodeRaw
  cls := currencyStatsClass
  primary := .int 8
  primaryKey := CurrencyStats.primaryKey

/-- `currency_stats st;`. -/
def defaultStats : CurrencyStats := ⟨⟨⟨0, by decide⟩, ⟨0⟩⟩, ⟨⟨0, by decide⟩, ⟨0⟩⟩, ⟨0⟩⟩

/-! ## Balances -/

/-- The message of an overdrawn balance. -/
def overdrawn (balance value : Text) : String :=
  String.ofList ("overdrawn balance from.balance:".toList ++ balance ++ "value:".toList ++ value)

def subBalance (chain : Chain) (owner : Regid) (value : Asset) (s : Db.Store) : Exec Db.Store := do
  let row ← (accounts owner).get value.symbol.code.raw s
  match row with
  | none => .error (.abort "no balance object found")
  | some fromRow => do
    -- the message is made before it is known whether it is needed
    let balanceText ← fromRow.balance.toStr
    let valueText ← value.toStr
    check (fromRow.balance.amount.val ≥ value.amount.val) (overdrawn balanceText valueText)
    (accounts owner).modify chain.absent fromRow (fun a => do
      let balance ← a.balance.subAssign value
      pure { a with balance }) s

def addBalance (chain : Chain) (owner : Regid) (value : Asset) (s : Db.Store) : Exec Db.Store := do
  let row ← (accounts owner).get value.symbol.code.raw s
  match row with
  | none => (accounts owner).emplace (fun _ => pure ⟨owner, value⟩) s
  | some toRow => (accounts owner).modify chain.absent toRow (fun a => do
      let balance ← a.balance.addAssign value
      pure { a with balance }) s

/-! ## Actions -/

variable (chain : Chain) (self : Regid)

def create (issuer : Regid) (maximumSupply : Asset) (w : World) : Exec World := do
  chain.requireAuth issuer
  let maintainer := chain.getMaintainer self
  check (issuer = maintainer) "issuer not contract maintainer"
  let sym := maximumSupply.symbol
  check sym.isValid "invalid symbol name"
  check maximumSupply.isValid "invalid supply"
  check (maximumSupply.amount.val > 0) "max-supply must be positive"
  let row ← (stats sym.code.raw).get sym.code.raw w.db
  check row.isNone "token with symbol already exists"
  w.onDb ((stats sym.code.raw).emplace fun s =>
    pure { s with
      supply := { s.supply with symbol := maximumSupply.symbol }
      maxSupply := maximumSupply
      issuer := issuer })

/-- The arguments of `transfer`. -/
def transferTy :
    Ty (Class.regid.Members × Class.regid.Members × Class.asset.Members × List UInt8 × Unit) :=
  .tuple (.cons Class.regid.ty (.cons Class.regid.ty (.cons Class.asset.ty (.cons .string .nil))))

def issue (toAccount : Regid) (quantity : Asset) (memo : List UInt8) (w : World) : Exec World := do
  let sym := quantity.symbol
  check sym.isValid "invalid symbol name"
  check (memo.length ≤ 256) "memo has more than 256 bytes"
  let row ← (stats sym.code.raw).get sym.code.raw w.db
  match row with
  | none => .error (.abort "token with symbol does not exist, create token before issue")
  | some st => do
    chain.requireAuth st.issuer
    check quantity.isValid "invalid quantity"
    check (quantity.amount.val > 0) "must issue positive quantity"
    check (quantity.symbol = st.supply.symbol) "symbol precision mismatch"
    let available ← defined (st.maxSupply.amount.sub st.supply.amount)
    check (quantity.amount.val ≤ available.val) "quantity exceeds available supply"
    let w ← w.onDb ((stats sym.code.raw).modify chain.absent st fun s => do
      let supply ← s.supply.addAssign quantity
      pure { s with supply })
    let w ← w.onDb (addBalance chain st.issuer quantity)
    if toAccount ≠ st.issuer then do
      let data ← transferTy.pack (Class.regid.members st.issuer, Class.regid.members toAccount,
        Class.asset.members quantity, memo, ())
      w.send ⟨self, .literal "transfer", [⟨st.issuer, .literal "wasmio_owner"⟩], data⟩
    else pure w

def retire (quantity : Asset) (memo : List UInt8) (w : World) : Exec World := do
  let sym := quantity.symbol
  check sym.isValid "invalid symbol name"
  check (memo.length ≤ 256) "memo has more than 256 bytes"
  let row ← (stats sym.code.raw).get sym.code.raw w.db
  match row with
  | none => .error (.abort "token with symbol does not exist")
  | some st => do
    chain.requireAuth st.issuer
    check quantity.isValid "invalid quantity"
    check (quantity.amount.val > 0) "must retire positive quantity"
    check (quantity.symbol = st.supply.symbol) "symbol precision mismatch"
    let w ← w.onDb ((stats sym.code.raw).modify chain.absent st fun s => do
      let supply ← s.supply.subAssign quantity
      pure { s with supply })
    w.onDb (subBalance chain st.issuer quantity)

def transfer (fromAccount toAccount : Regid) (quantity : Asset) (memo : List UInt8) (w : World) : Exec World := do
  check (fromAccount ≠ toAccount) "cannot transfer to self"
  chain.requireAuth fromAccount
  check (chain.isAccount toAccount) "to account does not exist"
  let sym := quantity.symbol.code
  -- without a row the default-constructed object stays
  let row ← (stats sym.raw).get sym.raw w.db
  let st := row.getD defaultStats
  check quantity.isValid "invalid quantity"
  check (quantity.amount.val > 0) "must transfer positive quantity"
  check (quantity.symbol = st.supply.symbol) "symbol precision mismatch"
  check (memo.length ≤ 256) "memo has more than 256 bytes"
  let w ← w.onDb (subBalance chain fromAccount quantity)
  w.onDb (addBalance chain toAccount quantity)

/-- `open`. -/
def openAccount (owner : Regid) (symbol : Symbol) (payer : Regid) (w : World) : Exec World := do
  chain.requireAuth payer
  let symCodeRaw := symbol.code.raw
  let row ← (stats symCodeRaw).get symCodeRaw w.db
  match row with
  | none => .error (.abort "symbol does not exist")
  | some st => do
    check (st.supply.symbol = symbol) "symbol precision mismatch"
    let account ← (accounts owner).get symCodeRaw w.db
    match account with
    | none => w.onDb ((accounts owner).emplace fun _ => do
        let balance ← Asset.new ⟨0, by decide⟩ symbol
        pure ⟨owner, balance⟩)
    | some _ => pure w

/-- `close`. -/
def closeAccount (owner : Regid) (symbol : Symbol) (w : World) : Exec World := do
  chain.requireAuth owner
  let row ← (accounts owner).get symbol.code.raw w.db
  match row with
  | none =>
    .error (.abort "Balance row already deleted or never existed. Action won't have any effect.")
  | some account => do
    check (account.balance.amount.val = 0) "Cannot close because the balance is not zero."
    w.onDb ((accounts owner).erase account)

/-- `balance_of`: the amount returned. -/
def balanceOf (owner : Regid) (symbol : Symbol) (w : World) : Exec (SInt 64) := do
  let sym := symbol.code
  let row ← (stats sym.raw).get sym.raw w.db
  let st := row.getD defaultStats
  check (symbol = st.supply.symbol) "symbol precision mismatch"
  let account ← (accounts owner).get symbol.code.raw w.db
  match account with
  | none => .error (.abort "no balance object found")
  | some fromRow => pure fromRow.balance.amount

/-! ## Dispatch -/

/-- An action: its name, the types of the method's parameters, and the method. -/
structure Entry where
  name : String
  Args : Type
  params : Ty Args
  method : Chain → Regid → Args → World → Exec World

/-- The `switch` of `apply`. -/
def entries : List Entry :=
  [{ name := "create", Args := _
     params := .tuple (.cons Class.regid.ty (.cons Class.asset.ty .nil))
     method := fun chain self args =>
      create chain self (Class.regid.ofMembers args.1) (Class.asset.ofMembers args.2.1) },
   { name := "issue", Args := _
     params := .tuple (.cons Class.regid.ty (.cons Class.asset.ty (.cons .string .nil)))
     method := fun chain self args =>
      issue chain self (Class.regid.ofMembers args.1) (Class.asset.ofMembers args.2.1) args.2.2.1 },
   { name := "retire", Args := _
     params := .tuple (.cons Class.asset.ty (.cons .string .nil))
     method := fun chain _ args => retire chain (Class.asset.ofMembers args.1) args.2.1 },
   { name := "transfer", Args := _
     params := transferTy
     method := fun chain _ args => transfer chain (Class.regid.ofMembers args.1)
      (Class.regid.ofMembers args.2.1) (Class.asset.ofMembers args.2.2.1) args.2.2.2.1 },
   { name := "open", Args := _
     params := .tuple (.cons Class.regid.ty (.cons (.int 8) (.cons Class.regid.ty .nil)))
     method := fun chain _ args =>
      openAccount chain (Class.regid.ofMembers args.1) ⟨args.2.1⟩ (Class.regid.ofMembers args.2.2.1) },
   { name := "close", Args := _
     params := .tuple (.cons Class.regid.ty (.cons (.int 8) .nil))
     method := fun chain _ args => closeAccount chain (Class.regid.ofMembers args.1) ⟨args.2.1⟩ },
   { name := "balance_of", Args := _
     params := .tuple (.cons Class.regid.ty (.cons (.int 8) .nil))
     method := fun _ _ args w => do
      let _ ← balanceOf (Class.regid.ofMembers args.1) ⟨args.2.1⟩ w
      pure w }]

/-- `apply`; it does not look at `code`. The method is called with what `execute_action` reads. -/
def apply (action : BitVec (8 * 8)) (data : List UInt8) (w : World) : Exec World :=
  match entries.find? fun e => Name.ofString e.name.toList = .ok ⟨action⟩ with
  | none => .error (.abort "action did not exist!")
  | some e => do
    let (args, _) ← e.params.extract (.start data)
    e.method chain self args w

/-! ## Runs -/

/-- A call of the contract: what the chain says in its course, the action, and the packed arguments. -/
structure Call where
  chain : Chain
  action : BitVec (8 * 8)
  data : List UInt8

/-- A call that fails leaves the store as it was. -/
def Call.step (call : Call) (s : Db.Store) : Db.Store :=
  match apply call.chain self call.action call.data ⟨s, []⟩ with
  | .ok w => w.db
  | .error _ => s

def run (calls : List Call) (s : Db.Store) : Db.Store := calls.foldl (fun s call => call.step self s) s

end Token

end Wasmlib
