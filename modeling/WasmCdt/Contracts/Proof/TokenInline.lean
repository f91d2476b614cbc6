import WasmCdt.Contracts.Proof.Classes
import WasmCdt.Contracts.Token

/-!
# The inline transaction of the token contract

It can be packed, and the contract's `apply` takes it for a transfer, as it takes every call with packed
arguments for the action of its name (`apply_packed`).
-/

namespace Wasmlib.Token

open Scoped

variable {chain : Chain} {self : Regid} {quantity : Asset} {memo : List UInt8}

theorem length_sizePrefix {n : Nat} (h : n < 2 ^ 35) : (Format.sizePrefix n).length ≤ 5 :=
  Leb128.encodeU_length (n := 5) h (by decide)

theorem transferTy_length (source target : Regid) (quantity : Asset) (hmemo : memo.length ≤ 256) :
    (transferTy.format.bytes (Class.regid.members source, Class.regid.members target,
      Class.asset.members quantity, memo, ())).length ≤ 293 := by
  have hprefix := length_sizePrefix (n := memo.length) (by omega)
  have hsource := Class.regid_fixed.length (Class.regid.members source)
  have htarget := Class.regid_fixed.length (Class.regid.members target)
  have hquantity := Class.asset_fixed.length (Class.asset.members quantity)
  change (_ ++ (_ ++ (_ ++ ((Format.sizePrefix memo.length ++ memo) ++ [])))).length ≤ 293
  simp only [List.length_append, hsource, htarget, hquantity, List.length_nil]
  omega

/-- The arguments of `transfer` can be packed, with a memo that is not too long. -/
theorem transferTy_packs (source target : Regid) (quantity : Asset) (hmemo : memo.length ≤ 256) :
    transferTy.Packs (Class.regid.members source, Class.regid.members target, Class.asset.members quantity,
      memo, ()) where
  bounded := ⟨Class.regid_fixed.bounded _, Class.regid_fixed.bounded _, Class.asset_fixed.bounded _,
    (by omega : memo.length < 2 ^ 32), trivial⟩
  fits := ⟨Class.regid_fixed.fits _ _, Class.regid_fixed.fits _ _, Class.asset_fixed.fits _ _, trivial,
    trivial⟩
  small := (transferTy_length source target quantity hmemo).trans_lt (by decide)

theorem name_fixed : Class.name.ty.Fixed 8 := .struct (.cons (.int 8) .nil) _

theorem permission_fixed : Class.permission.ty.Fixed 16 :=
  .struct (.cons Class.regid_fixed (.cons name_fixed .nil)) _

/-- A transaction with one permission can be packed. -/
theorem transaction_packs (account : Regid) (name : Name) (p : Permission) {data : List UInt8}
    (hdata : data.length < 2 ^ 30) :
    Class.transaction.ty.Packs (Class.transaction.members ⟨account, name, [p], data⟩) where
  bounded := ⟨Class.regid_fixed.bounded _, ⟨trivial, trivial⟩,
    ⟨(by norm_num : 1 < 2 ^ 32), fun _ _ => permission_fixed.bounded _⟩,
    (by omega : data.length < 2 ^ 32), trivial⟩
  fits := ⟨Class.regid_fixed.fits _ _, ⟨trivial, trivial⟩, .cons (permission_fixed.fits _ _) .nil, trivial,
    trivial⟩
  small := by
    have hprefix := length_sizePrefix (n := data.length) (by omega)
    have hone := length_sizePrefix (n := 1) (by decide)
    have haccount := Class.regid_fixed.length (Class.regid.members account)
    have hname := name_fixed.length (Class.name.members name)
    have hp := permission_fixed.length (Class.permission.members p)
    change (Class.regid.ty.format.bytes (Class.regid.members account) ++
      (Class.name.ty.format.bytes (Class.name.members name) ++
        ((Format.sizePrefix 1 ++ (Class.permission.ty.format.bytes (Class.permission.members p) ++ [])) ++
          ((Format.sizePrefix data.length ++ data) ++ [])))).length < 2 ^ 31
    simp only [List.length_append, haccount, hname, hp, List.length_nil]
    omega

/-- The inline transaction of `issue`. -/
def inlineTransfer (self source target : Regid) (quantity : Asset) (memo : List UInt8) : Transaction where
  account := self
  name := .literal "transfer"
  authorization := [⟨source, .literal "wasmio_owner"⟩]
  data := transferTy.format.bytes (Class.regid.members source, Class.regid.members target,
    Class.asset.members quantity, memo, ())

theorem inlineTransfer_packs (source target : Regid) (quantity : Asset) (hmemo : memo.length ≤ 256) :
    Class.transaction.ty.Packs
      (Class.transaction.members (inlineTransfer self source target quantity memo)) := by
  refine transaction_packs self (.literal "transfer") ⟨source, .literal "wasmio_owner"⟩ ?_
  exact (transferTy_length source target quantity hmemo).trans_lt (by decide)

theorem send_transfer (w : World) (source target : Regid) (quantity : Asset) (hmemo : memo.length ≤ 256) :
    (do
      let data ← transferTy.pack (Class.regid.members source, Class.regid.members target,
        Class.asset.members quantity, memo, ())
      w.send ⟨self, .literal "transfer", [⟨source, .literal "wasmio_owner"⟩], data⟩) =
    .ok { w with inline := w.inline ++ [Class.transaction.ty.format.bytes
      (Class.transaction.members (inlineTransfer self source target quantity memo))] } := by
  have hpack : Class.transaction.ty.pack (Class.transaction.members
      (inlineTransfer self source target quantity memo)) = _ :=
    (inlineTransfer_packs source target quantity hmemo).pack_eq
  unfold inlineTransfer at hpack
  rw [(transferTy_packs source target quantity hmemo).pack_eq, ok_bind, World.send, hpack, ok_bind, pure_eq_ok]
  rfl

theorem extract_packed {α : Type} {t : Ty α} {v : α} (h : t.Packs v) :
    t.extract (.start (t.format.bytes v)) = .ok (v, ⟨t.format.bytes v, []⟩) := by
  have hread := t.implements.read h.bounded h.fits [] []
  rwa [List.append_nil, List.nil_append] at hread

/-- The `switch` finds every action by its name. -/
theorem find_entry {e : Entry} (he : e ∈ entries) :
    entries.find? (fun e' => Name.ofString e'.name.toList = .ok ⟨(Name.literal e.name).value⟩) = some e := by
  have hmem := he
  simp only [entries, List.mem_cons, List.not_mem_nil, or_false] at hmem
  obtain rfl | rfl | rfl | rfl | rfl | rfl | rfl := hmem
  all_goals rfl

/-- A call with packed arguments reaches the method with these arguments. -/
theorem apply_packed {e : Entry} (he : e ∈ entries) {args : e.Args} (hargs : e.params.Packs args) (w : World) :
    apply chain self (Name.literal e.name).value (e.params.format.bytes args) w = e.method chain self args w := by
  rw [apply, find_entry he]
  dsimp only
  rw [extract_packed hargs, ok_bind]

theorem apply_transfer (source target : Regid) (quantity : Asset) (hmemo : memo.length ≤ 256) (w : World) :
    apply chain self (Name.literal "transfer").value (transferTy.format.bytes (Class.regid.members source,
      Class.regid.members target, Class.asset.members quantity, memo, ())) w =
      transfer chain source target quantity memo w := by
  have htransfer : entries[3] ∈ entries := List.getElem_mem (by decide)
  refine (apply_packed htransfer (transferTy_packs source target quantity hmemo) w).trans ?_
  change transfer chain (Class.regid.ofMembers (Class.regid.members source))
    (Class.regid.ofMembers (Class.regid.members target)) (Class.asset.ofMembers (Class.asset.members quantity))
    memo w = _
  rw [Class.ofMembers_members, Class.ofMembers_members, Class.ofMembers_members]

end Wasmlib.Token
