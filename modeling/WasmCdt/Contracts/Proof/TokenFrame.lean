import WasmCdt.Contracts.Proof.TokenRuns

/-!
# What a token contract does not touch

Its calls write rows of its two tables, and no others (`run_frame`).
-/

namespace Wasmlib.Token

open Scoped

/-- A row of one of the two tables, of any scope. -/
def IsRow (k : List UInt8) : Prop :=
  (∃ o primary, k = (accounts o).rowKey primary) ∨ ∃ c primary, k = (stats c).rowKey primary

/-- Other rows are as they were. -/
def Frame (s s' : Db.Store) : Prop := ∀ k, ¬IsRow k → s' k = s k

namespace Frame

variable {s s' s'' : Db.Store}

theorem refl (s : Db.Store) : Frame s s := fun _ _ => rfl

theorem trans (h : Frame s s') (h' : Frame s' s'') : Frame s s'' := fun k hk => (h' k hk).trans (h k hk)

theorem ofAccounts {o : Regid} (h : ∀ k, (∀ primary, k ≠ (accounts o).rowKey primary) → s' k = s k) :
    Frame s s' := fun k hk => h k fun primary heq => hk (.inl ⟨o, primary, heq⟩)

theorem ofStats {c : BitVec (8 * 8)} (h : ∀ k, (∀ primary, k ≠ (stats c).rowKey primary) → s' k = s k) :
    Frame s s' := fun k hk => h k fun primary heq => hk (.inr ⟨c, primary, heq⟩)

end Frame

/-- The store that is left, if there is one, is `s` but for rows of the two tables. -/
def Writes (s : Db.Store) (r : Exec Db.Store) : Prop := ∀ s', r = .ok s' → Frame s s'

/-- `Writes`, of an action. -/
def Leaves (s : Db.Store) (r : Exec World) : Prop := ∀ w', r = .ok w' → Frame s w'.db

section

variable {α : Type} {r : Exec α} {s : Db.Store} {w : World}

/-- A step that only reads. -/
theorem Writes.bind {f : α → Exec Db.Store} (h : ∀ a, Writes s (f a)) : Writes s (r >>= f) := by
  intro s' hrun
  obtain ⟨a, -, hrun⟩ := bind_eq_ok hrun
  exact h a s' hrun

namespace Leaves

theorem bind {f : α → Exec World} (h : ∀ a, Leaves s (f a)) : Leaves s (r >>= f) := fun w' hrun => by
  obtain ⟨a, -, hrun⟩ := bind_eq_ok hrun
  exact h a w' hrun

theorem error {e : Stop} : Leaves s (.error e) := nofun

theorem pure : Leaves w.db (.ok w) := fun _ hrun => by
  cases hrun
  exact .refl _

/-- An operation on the store, then the rest. -/
theorem onDb {f : Db.Store → Exec Db.Store} {g : World → Exec World} (hf : Writes w.db (f w.db))
    (hg : ∀ w', Leaves w'.db (g w')) : Leaves w.db (w.onDb f >>= g) := fun w' hrun => by
  obtain ⟨w₁, honDb, hrun⟩ := bind_eq_ok hrun
  obtain ⟨db, hdb, hpure⟩ := bind_eq_ok honDb
  cases hpure
  exact (hf db hdb).trans (hg _ w' hrun)

theorem ofDb {f : Db.Store → Exec Db.Store} (hf : Writes w.db (f w.db)) : Leaves w.db (w.onDb f) := by
  have hlast : Leaves w.db (w.onDb f >>= fun w' => .ok w') := .onDb hf fun _ => .pure
  rwa [bind_ok] at hlast

end Leaves

end

/-! ## Actions -/

section

variable {chain : Chain} {self : Regid} {s : Db.Store} {w : World}

theorem subBalance_frame (owner : Regid) (value : Asset) :
    Writes s (subBalance chain owner value s) := by
  refine .bind fun row => ?_
  cases row with
  | none => exact nofun
  | some row =>
    exact .bind fun _ => .bind fun _ => .bind fun _ => fun _ hrun =>
      .ofAccounts fun _ => (accounts_fixed owner).modify_frame hrun

theorem addBalance_frame (owner : Regid) (value : Asset) :
    Writes s (addBalance chain owner value s) := by
  refine .bind fun row => ?_
  cases row with
  | none => exact fun _ hrun => .ofAccounts fun _ => (accounts_fixed owner).emplace_frame hrun
  | some row => exact fun _ hrun => .ofAccounts fun _ => (accounts_fixed owner).modify_frame hrun

theorem create_frame (issuer : Regid) (maximumSupply : Asset) :
    Leaves w.db (create chain self issuer maximumSupply w) := by
  refine .bind fun _ => .bind fun _ => .bind fun _ => .bind fun _ => ?_
  refine .bind fun _ => .bind fun _ => .bind fun _ => ?_
  exact .ofDb fun _ hrun => .ofStats fun _ => (stats_fixed _).emplace_frame hrun

theorem send_frame (t : Transaction) : Leaves w.db (w.send t) := fun w' hrun => by
  obtain ⟨_, -, hrun⟩ := bind_eq_ok hrun
  cases hrun
  exact .refl _

theorem issue_frame (toAccount : Regid) (quantity : Asset) (memo : List UInt8) :
    Leaves w.db (issue chain self toAccount quantity memo w) := by
  refine .bind fun _ => .bind fun _ => .bind fun row => ?_
  cases row with
  | none => exact .error
  | some st =>
    refine .bind fun _ => .bind fun _ => .bind fun _ => .bind fun _ => .bind fun _ => .bind fun _ => ?_
    refine .onDb (fun _ hrun => .ofStats fun _ => (stats_fixed _).modify_frame hrun) fun w₁ => ?_
    refine .onDb (addBalance_frame st.issuer quantity) fun w₂ => ?_
    split
    · exact .bind fun _ => send_frame _
    · exact .pure

theorem retire_frame (quantity : Asset) (memo : List UInt8) :
    Leaves w.db (retire chain quantity memo w) := by
  refine .bind fun _ => .bind fun _ => .bind fun row => ?_
  cases row with
  | none => exact .error
  | some st =>
    refine .bind fun _ => .bind fun _ => .bind fun _ => .bind fun _ => ?_
    refine .onDb (fun _ hrun => .ofStats fun _ => (stats_fixed _).modify_frame hrun) fun w₁ => ?_
    exact .ofDb (subBalance_frame st.issuer quantity)

theorem transfer_frame (source target : Regid) (quantity : Asset) (memo : List UInt8) :
    Leaves w.db (transfer chain source target quantity memo w) := by
  refine .bind fun _ => .bind fun _ => .bind fun _ => .bind fun _ => ?_
  refine .bind fun _ => .bind fun _ => .bind fun _ => .bind fun _ => ?_
  exact .onDb (subBalance_frame source quantity) fun w₁ => .ofDb (addBalance_frame target quantity)

theorem open_frame (owner : Regid) (symbol : Symbol) (payer : Regid) :
    Leaves w.db (openAccount chain owner symbol payer w) := by
  refine .bind fun _ => .bind fun row => ?_
  cases row with
  | none => exact .error
  | some st =>
    refine .bind fun _ => .bind fun account => ?_
    cases account with
    | none => exact .ofDb fun _ hrun => .ofAccounts fun _ => (accounts_fixed owner).emplace_frame hrun
    | some account => exact .pure

theorem close_frame (owner : Regid) (symbol : Symbol) :
    Leaves w.db (closeAccount chain owner symbol w) := by
  refine .bind fun _ => .bind fun row => ?_
  cases row with
  | none => exact .error
  | some account =>
    exact .bind fun _ => .ofDb fun _ hrun => .ofAccounts fun _ => (accounts_fixed owner).erase_frame hrun

theorem exec_frame (a : Action) : Leaves w.db (a.exec chain self w) := by
  cases a with
  | create issuer maximumSupply => exact create_frame issuer maximumSupply
  | issue toAccount quantity memo => exact issue_frame toAccount quantity memo
  | retire quantity memo => exact retire_frame quantity memo
  | transfer fromAccount toAccount quantity memo => exact transfer_frame fromAccount toAccount quantity memo
  | openAccount owner symbol payer => exact open_frame owner symbol payer
  | closeAccount owner symbol => exact close_frame owner symbol
  | balanceOf owner symbol => exact .bind fun _ => .pure

theorem step_frame (call : Call) (s : Db.Store) : Frame s (call.step self s) := by
  rw [Call.step]
  cases hrun : apply call.chain self call.action call.data ⟨s, []⟩ with
  | error e => exact .refl s
  | ok w' =>
    obtain ⟨e, herror⟩ | ⟨a, hexec⟩ := apply_cases self call.chain call.action call.data ⟨s, []⟩
    · cases hrun.symm.trans herror
    · exact exec_frame a w' (hexec.symm.trans hrun)

/-- **A run writes rows of the two tables only**: from any store, whatever is called. -/
theorem run_frame (self : Regid) (calls : List Call) (s : Db.Store) {k : List UInt8}
    (haccounts : ∀ o primary, k ≠ (accounts o).rowKey primary)
    (hstats : ∀ c primary, k ≠ (stats c).rowKey primary) : run self calls s k = s k := by
  have hk : ¬IsRow k := by
    rintro (⟨o, primary, heq⟩ | ⟨c, primary, heq⟩)
    · exact haccounts o primary heq
    · exact hstats c primary heq
  induction calls generalizing s with
  | nil => rfl
  | cons call calls ih => exact (ih (call.step self s)).trans (step_frame call s k hk)

end

/-- Another table of the contract. -/
def sampleVotes : ClassTable Account (BitVec (8 * 8)) := { accounts ⟨7⟩ with tableName := .literal "votes" }

theorem run_frame_sample : run ⟨1⟩ [sampleCreate, sampleIssue]
    (Function.update (fun _ => none) (sampleVotes.rowKey 7) (some [1])) (sampleVotes.rowKey 7) = some [1] := by
  have hname : Name.literal "accounts" ≠ Name.literal "votes" := by decide
  have hname' : Name.literal "stat" ≠ Name.literal "votes" := by decide
  have haccounts : ∀ o primary, sampleVotes.rowKey 7 ≠ (accounts o).rowKey primary := fun o _ heq =>
    hname ((accounts_fixed o).rowKey_inj sampleVotes rfl heq.symm).1
  have hstats : ∀ c primary, sampleVotes.rowKey 7 ≠ (stats c).rowKey primary := fun c _ heq =>
    hname' ((stats_fixed c).rowKey_inj sampleVotes rfl heq.symm).1
  exact (run_frame ⟨1⟩ [sampleCreate, sampleIssue] _ haccounts hstats).trans (Function.update_self _ _ _)

end Wasmlib.Token
