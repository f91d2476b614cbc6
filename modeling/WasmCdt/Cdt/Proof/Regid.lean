import WasmCdt.Cdt.Utils
import WasmCdt.Core.Proof.Regid

/-!
# Regids of the toolchain

The encoder and the printer of `utils.hpp` are inverse on the canonical texts whose height an `int`
can tell, and on no other text (`regidToString_stringToRegid_iff`).
-/

namespace Cdt

open Wasmlib

/-- `s` is the printed form of an id that the encoder can tell. -/
def CanonicalRegid (s : Text) : Prop :=
  ∃ height index, s = regidText height index ∧ HeightFits height ∧ index < 2 ^ 20

theorem regidToString_eq (v : BitVec 64) :
    regidToString v = regidText (v.toNat / 2 ^ 20) (v.toNat % 2 ^ 20) := by
  simp only [regidToString, toInt_height, toInt_index, regidText]

theorem stringToRegid_text {s : Text} {height index : Nat} (h : DenotesRegid s height index) :
    stringToRegid s = atoiWord height index := by
  obtain ⟨p, hfind, -, -, hheight, hindex⟩ := h.find
  simp only [stringToRegid, hfind, hheight, hindex]
  rfl

/-- **The printer inverts the encoder** on canonical texts only. -/
theorem regidToString_stringToRegid_iff (s : Text) :
    regidToString (stringToRegid s) = s ↔ CanonicalRegid s := by
  constructor
  · intro h
    have hlt := (stringToRegid s).isLt
    have hindex : (stringToRegid s).toNat % 2 ^ 20 < 2 ^ 20 := Nat.mod_lt _ (by decide)
    rw [regidToString_eq] at h
    refine ⟨_, _, h.symm, ?_, hindex⟩
    -- the word is the one its own fields are encoded to
    rw [← heightWord_eq_iff (by omega) hindex,
      ← stringToRegid_text (h ▸ denotesRegid_regidText _ _)]
    apply BitVec.eq_of_toNat_eq
    rw [BitVec.toNat_ofNat]
    omega
  · rintro ⟨height, index, rfl, hh, hi⟩
    have hlt : height < 2 ^ 44 := by rcases hh with hh | hh <;> omega
    rw [stringToRegid_text (denotesRegid_regidText height index),
      (heightWord_eq_iff hlt hi).2 hh, regidToString_eq, BitVec.toNat_ofNat]
    congr 1 <;> omega

theorem CanonicalRegid.inj {s s' : Text} (h : CanonicalRegid s) (h' : CanonicalRegid s')
    (heq : stringToRegid s = stringToRegid s') : s = s' := by
  rw [← (regidToString_stringToRegid_iff s).2 h, ← (regidToString_stringToRegid_iff s').2 h', heq]

end Cdt
