import WasmCdt.Lld.Proof.InputChunks
import WasmCdt.Lld.Proof.Metadata
import WasmCdt.Lld.Sections

/-!
# Reading back what the linker writes

The readers of `WasmObjectFile` on what the functions of `WriterUtils.cpp` write.

* `takes_varuint32`, `takes_leb`: numbers, in their shortest form or padded.
* `takes_signature`, `takes_import`, `takes_export`, `takes_global`: the parts of sections.
-/

namespace Lld

namespace WasmObjectFile

open Cursor Leb128 Reading
open Metadata (WasmSection byteAt ctxEnd byteAt_eq range_byteAt slice_toNat readULEB128_ok readString_ok)

/-- Where the content has `xs` at `p`, the reader gives `a` and stops behind. -/
abbrev Takes {α : Type} (r : ReadM α) (p : Nat) (xs : List UInt8) (a : α) : Prop :=
  Accepts WasmSection.content r p xs a

section
variable {α : Type} {p : Nat} {xs : List UInt8} {a : α}

theorem takes_getPtr (p : Nat) : Takes getPtr p [] p := fun _ _ _ => rfl

/-- The end is not before what is read. -/
theorem takes_getEnd {r : Nat → ReadM α} (h : ∀ e, p + xs.length ≤ e → Takes (r e) p xs a) :
    Takes (getEnd >>= r) p xs a := by
  intro sec t hreads
  have hlen := hreads.length
  rw [List.length_append] at hlen
  exact h (ctxEnd sec) (by unfold ctxEnd; omega) sec t hreads

theorem takes_bytes (xs : List UInt8) (p : Nat) : Takes (takeBytes xs.length) p xs xs := by
  intro sec t hreads
  rw [takeBytes, range_byteAt hreads]

theorem takes_uint8 (b : UInt8) (p : Nat) : Takes readUint8 p [b] b := by
  intro sec t hreads
  have hend : p ≠ ctxEnd sec := fun h => List.cons_ne_nil b t (hreads.eq_nil_iff.1 h)
  rw [readUint8, if_neg hend, byteAt_eq hreads]
  rfl

theorem takes_uint32 {xs : List UInt8} (hlen : xs.length = 4) (p : Nat) : Takes readUint32 p xs xs := by
  refine Accepts.peek (takes_getPtr p) (takes_getEnd fun e he => ?_)
  refine Accepts.peek (accepts_failIf (by omega) _) ?_
  rw [← hlen]
  exact takes_bytes xs p

/-- A counted loop. -/
theorem takes_times {ι β : Type} {r : ReadM β} {bytes : ι → List UInt8} (val : ι → β) {xs : List ι}
    (h : ∀ x ∈ xs, ∀ p, Takes r p (bytes x) (val x)) (p : Nat) :
    Takes (times r xs.length) p (xs.flatMap bytes) (xs.map val) :=
  accepts_times_map h p

theorem takes_times_rel {ι β : Type} {r : ReadM β} (bytes : ι → List UInt8) (Q : ι → β → Prop) {xs : List ι}
    (h : ∀ x ∈ xs, ∀ p, ∃ b, Q x b ∧ Takes r p (bytes x) b) (p : Nat) :
    ∃ bs, List.Forall₂ Q xs bs ∧ Takes (times r xs.length) p (xs.flatMap bytes) bs :=
  accepts_times h p

end

/-! ## Numbers -/

theorem takes_uleb {g : List UInt8} (h : Metadata.Fits g) (p : Nat) :
    Takes readULEB128 p g (BitVec.ofNat 64 (value g)) := by
  intro sec t hreads
  exact (readULEB128_ok hreads).2 ⟨g, t, rfl, h, by
    rw [BitVec.toNat_ofNat, Nat.mod_eq_of_lt h.value_lt], rfl⟩

/-- **Unsigned numbers**, however they are padded. -/
theorem takes_varuint32 {g : List UInt8} (hg : IsGroup g) (hlen : g.length ≤ 10)
    (hval : value g < 2 ^ 32) (p : Nat) : Takes readVaruint32 p g (value g) := by
  have hval' : value g < 2 ^ 64 := Nat.lt_trans hval (by decide)
  have hnat : (BitVec.ofNat 64 (value g)).toNat = value g := by
    rw [BitVec.toNat_ofNat, Nat.mod_eq_of_lt hval']
  refine (takes_uleb ⟨hg, hlen, hval'⟩ p).map ?_
  rw [hnat, failIf, if_neg (by omega)]
  rfl

theorem takes_writeUleb128 {n : Nat} (hn : n < 2 ^ 32) (p : Nat) :
    Takes readVaruint32 p (writeUleb128 n) n := by
  obtain ⟨hg, hval⟩ := encodeU_group n
  have hlen := encodeU_length (n := 5) (show n < 2 ^ (7 * 5) by omega) (by decide)
  have hread := takes_varuint32 hg (by omega) (hval.symm ▸ hn) p
  rwa [hval] at hread

/-- `writeUleb128` of a size. -/
theorem takes_writeSize {n : Nat} (hn : n < 2 ^ 32) (p : Nat) : Takes readVaruint32 p (writeSize n) n := by
  rw [writeSize, uint32, Nat.mod_eq_of_lt hn]
  exact takes_writeUleb128 hn p

/-! ## Signed numbers -/

/-- The low bits of a byte over those there are already. -/
theorem or_shift_toNat {v x : BitVec 64} {shift : Nat} (hv : v.toNat < 2 ^ shift)
    (hx : x.toNat * 2 ^ shift < 2 ^ 64) : (v ||| x <<< shift).toNat = v.toNat + x.toNat * 2 ^ shift := by
  rw [BitVec.toNat_or, BitVec.toNat_shiftLeft, Nat.shiftLeft_eq, Nat.mod_eq_of_lt hx, Nat.mul_comm,
    Nat.or_comm, ← Nat.two_pow_add_eq_or_of_lt hv, Nat.add_comm]

/-- The sign goes over the bits above. -/
theorem or_sign {v : BitVec 64} {shift : Nat} (hv : v.toNat < 2 ^ shift) (hs : shift < 64) :
    v ||| BitVec.allOnes 64 <<< shift = BitVec.ofInt 64 (v.toNat - 2 ^ shift) := by
  have hpow : 2 ^ 64 = 2 ^ (64 - shift) * 2 ^ shift := by rw [← Nat.pow_add, Nat.sub_add_cancel hs.le]
  have hpos := Nat.two_pow_pos shift
  have hle : 2 ^ shift ≤ 2 ^ 64 := Nat.pow_le_pow_right (by decide) hs.le
  have hones : (2 ^ 64 - 1) * 2 ^ shift % 2 ^ 64 = (2 ^ (64 - shift) - 1) * 2 ^ shift := by
    have hsplit : (2 ^ 64 - 1) * 2 ^ shift
        = (2 ^ (64 - shift) - 1) * 2 ^ shift + 2 ^ 64 * (2 ^ shift - 1) := by
      simp only [Nat.sub_mul, Nat.mul_sub, Nat.one_mul, Nat.mul_one, ← hpow]
      have := Nat.mul_le_mul_left (2 ^ 64) hpos
      omega
    rw [hsplit, Nat.add_mul_mod_self_left, Nat.mod_eq_of_lt]
    rw [Nat.sub_mul, ← hpow, Nat.one_mul]
    omega
  apply BitVec.eq_of_toNat_eq
  rw [BitVec.toNat_or, BitVec.toNat_shiftLeft, BitVec.toNat_allOnes, Nat.shiftLeft_eq, hones, Nat.mul_comm,
    Nat.or_comm, ← Nat.two_pow_add_eq_or_of_lt hv, Nat.mul_comm, Nat.sub_mul, ← hpow, Nat.one_mul,
    BitVec.toNat_ofInt]
  have hcast : ((2 : Int) ^ shift) = ((2 ^ shift : Nat) : Int) := by push_cast; rfl
  rw [hcast]
  omega

theorem and_sign {b : UInt8} (hb : b.toNat < 128) : b &&& 0x40 ≠ 0 ↔ 64 ≤ b.toNat := by
  have hall : ∀ n < 128, n &&& 64 ≠ 0 ↔ 64 ≤ n := by decide
  rw [← hall b.toNat hb, ne_eq, ne_eq, ← UInt8.toNat_inj, UInt8.toNat_and]
  rfl

/-- The loop, of groups that end within 64 bits. -/
theorem decodeSLEB128_group {sec : WasmSection} : ∀ {g : List UInt8} {t : List UInt8} {p shift : Nat} {acc : BitVec 64},
    IsGroup g → Reads sec.content p (g ++ t) → acc.toNat < 2 ^ shift → shift + 7 * g.length < 64 →
    decodeSLEB128 sec p acc shift = .ok (BitVec.ofInt 64 (acc.toNat + valueS g * 2 ^ shift), p + g.length)
  | b :: bs, t, p, shift, acc, hg, hreads, hacc, hlen => by
    have hp : ¬ p ≥ ctxEnd sec := by
      have hlen := hreads.length
      rw [List.cons_append, List.length_cons] at hlen
      unfold ctxEnd
      omega
    rw [List.length_cons] at hlen
    have hpow : 2 ^ (shift + 7) = 2 ^ shift * 128 := Nat.pow_add 2 shift 7
    have hbig : 2 ^ (shift + 7) ≤ 2 ^ 63 := Nat.pow_le_pow_right (by decide) (by omega)
    have hslice : b.toNat % 128 * 2 ^ shift < 2 ^ 64 := by
      have hmod := Nat.mod_lt b.toNat (show 128 > 0 by decide)
      have hmul := Nat.mul_lt_mul_of_pos_right hmod (Nat.two_pow_pos shift)
      omega
    have hor := or_shift_toNat hacc (x := (b &&& 0x7f).toBitVec.setWidth 64) (by rwa [slice_toNat])
    rw [slice_toNat] at hor
    have hroom : (acc ||| (b &&& 0x7f).toBitVec.setWidth 64 <<< shift).toNat < 2 ^ (shift + 7) := by
      have hmod := Nat.mod_lt b.toNat (show 128 > 0 by decide)
      have hmul := Nat.mul_le_mul_right (2 ^ shift) (Nat.le_sub_one_of_lt hmod)
      omega
    rw [decodeSLEB128, if_neg hp]
    simp only [byteAt_eq hreads, ge_iff_le, UInt8.le_iff_toNat_le]
    change (if 128 ≤ b.toNat then _ else _) = _
    rw [IsGroup] at hg
    have hpow' : (2 : Int) ^ (shift + 7) = 2 ^ shift * 128 := by rw [pow_add]; norm_num
    by_cases hb : b.toNat < 128
    · rw [if_pos hb] at hg
      subst hg
      rw [Nat.mod_eq_of_lt hb] at hor
      rw [if_neg (by omega), List.length_singleton, valueS]
      by_cases h64 : 64 ≤ b.toNat
      · rw [if_pos ((and_sign hb).2 h64), or_sign hroom (by omega), hor, if_neg (by omega), if_pos hb, hpow']
        congr 3
        push_cast
        ring
      · rw [if_neg (mt (and_sign hb).1 h64), if_pos (by omega)]
        congr 2
        rw [← Nat.cast_ofNat (n := 2), ← Nat.cast_pow, ← Nat.cast_mul, ← Nat.cast_add, ← hor,
          BitVec.ofInt_natCast, BitVec.ofNat_toNat, BitVec.setWidth_eq]
    · rw [if_neg hb] at hg
      rw [if_pos (by omega), decodeSLEB128_group hg hreads.next hroom (by omega), hor, valueS, if_neg (by omega),
        if_neg hb, hpow', List.length_cons]
      have hbyte := b.toNat_lt
      have hmod : b.toNat % 128 = b.toNat - 128 := by omega
      rw [hmod]
      refine congrArg Except.ok (Prod.ext (congrArg (BitVec.ofInt 64) ?_) ?_)
      · push_cast [Nat.not_lt.1 hb]
        ring
      · exact Nat.add_right_comm p 1 bs.length

/-- A number that fits 32 bits survives their width. -/
theorem toInt_narrow {v : BitVec 64} (hlo : -2 ^ 31 ≤ v.toInt) (hhi : v.toInt < 2 ^ 31) :
    (v.setWidth 32).toInt = v.toInt := by
  have hmod : (v.toNat : Int).bmod (2 ^ 32) = v.toInt.bmod (2 ^ 32) := by
    rw [BitVec.toInt_eq_toNat_bmod, Int.bmod_bmod_of_dvd (by decide)]
  rw [BitVec.toInt_setWidth, hmod]
  exact Int.bmod_eq_of_le (by omega) (by omega)

/-- **Signed numbers**, however they are padded. -/
theorem takes_leb {g : List UInt8} (hg : IsGroup g) (hlen : g.length ≤ 9) (p : Nat) :
    Takes readLEB128 p g (BitVec.ofInt 64 (valueS g)) := by
  intro sec t hreads
  rw [readLEB128, decodeSLEB128_group hg hreads (by decide) (by omega)]
  simp

theorem takes_varint32 {g : List UInt8} (hg : IsGroup g) (hlen : g.length ≤ 9) (hlo : -2 ^ 31 ≤ valueS g)
    (hhi : valueS g < 2 ^ 31) (p : Nat) : Takes readVarint32 p g (BitVec.ofInt 32 (valueS g)) := by
  have hint : (BitVec.ofInt 64 (valueS g)).toInt = valueS g := by
    rw [BitVec.toInt_ofInt]
    exact Int.bmod_eq_of_le (by omega) (by omega)
  have hnarrow : (BitVec.ofInt 64 (valueS g)).setWidth 32 = BitVec.ofInt 32 (valueS g) := by
    rw [← BitVec.ofInt_toInt (x := (BitVec.ofInt 64 (valueS g)).setWidth 32),
      toInt_narrow (by omega) (by omega), hint]
  refine (takes_leb hg hlen p).map ?_
  rw [hint, failIf, if_neg (by omega)]
  exact congrArg (pure (f := ReadM)) hnarrow

/-- What `writeSleb128` writes, of a value in 32 bits. -/
theorem writeSleb128_group (v : BitVec 32) :
    IsGroup (writeSleb128 v) ∧ valueS (writeSleb128 v) = v.toInt ∧ (writeSleb128 v).length ≤ 5 := by
  have hbounds := toInt_bounds v
  obtain ⟨hg, hval⟩ := encodeSPad_group 0 0 v.toInt
  rw [encodeSPad_zero] at hg hval
  exact ⟨hg, hval, encodeS_length_le (by decide) (by norm_num; omega) (by norm_num; omega)⟩

theorem takes_writeSleb128 (v : BitVec 32) (p : Nat) : Takes readVarint32 p (writeSleb128 v) v := by
  have hbounds := toInt_bounds v
  obtain ⟨hg, hval, hlen⟩ := writeSleb128_group v
  have hread := takes_varint32 hg (by omega) (by omega) (by omega) p
  rwa [hval, BitVec.ofInt_toInt] at hread

theorem takes_varuint1 (b : Bool) (p : Nat) : Takes readVaruint1 p (writeU8 (if b then 1 else 0)) b := by
  cases b with
  | false =>
    have hg : IsGroup [0] := by simp [IsGroup]
    exact (takes_leb hg (by decide) p).map rfl
  | true =>
    have hg : IsGroup [1] := by simp [IsGroup]
    exact (takes_leb hg (by decide) p).map rfl

theorem takes_string {s : List UInt8} (hs : s.length < 2 ^ 32) (p : Nat) : Takes readString p (writeStr s) s := by
  intro sec t hreads
  obtain ⟨hg, hval⟩ := encodeU_group s.length
  have hlen := encodeU_length (n := 5) (show s.length < 2 ^ (7 * 5) by omega) (by decide)
  refine (readString_ok hreads).2 ⟨⟨encodeU s.length, s⟩, t, rfl, ⟨⟨hg, ?_, ?_⟩, ?_⟩, rfl, rfl⟩
  · exact Nat.le_trans hlen (by decide)
  · change value (encodeU s.length) < 2 ^ 64
    omega
  · change s.length = value (encodeU s.length) % 2 ^ 32
    rw [hval, Nat.mod_eq_of_lt hs]

/-! ## Parts of sections -/

/-- Signatures that can be told from one without a result. -/
structure SigOk (sig : Signature) : Prop where
  params : sig.paramTypes.length < 2 ^ 32
  result : sig.returnType ≠ some 0x40

theorem takes_signature {sig : Signature} (h : SigOk sig) (p : Nat) : Takes readSignature p (writeSig sig) sig := by
  obtain ⟨params, result⟩ := sig
  have hparams : ∀ p, Takes (times readUint8 params.length) p params params := fun p => by
    have hloop := takes_times id (fun b (_ : b ∈ params) q => takes_uint8 b q) p
    simpa using hloop
  simp only [writeSig, writeU8, List.append_assoc]
  refine (takes_uint8 0x60 p).bind ?_
  refine Accepts.peek (accepts_failIf (by decide) _) ?_
  refine (takes_writeSize h.params _).bind ?_
  refine (hparams _).bind ?_
  cases result with
  | none => exact (takes_writeUleb128 (by decide) _).map rfl
  | some type =>
    refine (takes_writeUleb128 (by decide) _).bind ?_
    refine Accepts.peek (accepts_failIf (by decide) _) ?_
    refine (takes_uint8 type _).map ?_
    have htype : type ≠ 0x40 := fun heq => h.result (congrArg some heq)
    rw [if_neg htype]

/-- Constants that `writeInitExpr` writes as they are. -/
def InitOk : WasmInitExpr → Prop
  | .i32Const _ | .getGlobal _ => True
  | .i64Const value => -2 ^ 31 ≤ value.toInt ∧ value.toInt < 2 ^ 31
  | .f32Const _ | .f64Const _ => False

/-- The `end` behind the operand. -/
theorem takes_ending {opcode : UInt8} {operand : List UInt8} {e : WasmInitExpr} (p : Nat)
    (h : Takes (readOperand opcode) (p + 1) operand e) :
    Takes readInitExpr p (writeU8 opcode ++ (operand ++ writeU8 0x0b)) e := by
  refine (takes_uint8 opcode p).bind (h.bind ?_)
  refine (takes_uint8 0x0b _).map ?_
  rfl

theorem takes_initExpr {e : WasmInitExpr} (h : InitOk e) (p : Nat) : Takes readInitExpr p (writeInitExpr e) e := by
  cases e with
  | i32Const v =>
    rw [writeInitExpr, List.append_assoc]
    exact takes_ending p ((takes_writeSleb128 v _).map rfl)
  | i64Const v =>
    obtain ⟨hg, hval, hlen⟩ := writeSleb128_group (v.setWidth 32)
    rw [writeInitExpr, List.append_assoc]
    refine takes_ending p ((takes_leb hg (by omega) _).map ?_)
    rw [hval, toInt_narrow h.1 h.2, BitVec.ofInt_toInt]
  | getGlobal g =>
    obtain ⟨hg, hval⟩ := encodeU_group g.toNat
    have hlen := encodeU_length (n := 5) (show g.toNat < 2 ^ (7 * 5) by omega) (by decide)
    rw [writeInitExpr, List.append_assoc]
    refine takes_ending p ((takes_uleb ⟨hg, Nat.le_trans hlen (by decide), by omega⟩ _).map ?_)
    have hwidth : (BitVec.ofNat 64 g.toNat).setWidth 32 = g := by
      rw [BitVec.setWidth_ofNat_of_le (by decide), BitVec.ofNat_toNat, BitVec.setWidth_eq]
    rw [hval, hwidth]
  | f32Const bytes | f64Const bytes => exact h.elim

structure LimitsOk (limits : WasmLimits) : Prop where
  initial : limits.initial < 2 ^ 32
  maximum : ∀ n, limits.maximum = some n → n < 2 ^ 32

theorem takes_limits {limits : WasmLimits} (h : LimitsOk limits) (p : Nat) :
    Takes readLimits p (writeLimits limits) limits := by
  obtain ⟨initial, maximum⟩ := limits
  simp only [writeLimits, List.append_assoc]
  refine (takes_varuint1 maximum.isSome p).bind ?_
  refine (takes_writeUleb128 h.initial _).bind ?_
  cases maximum with
  | none => exact accepts_pure _ _
  | some n => exact (takes_writeUleb128 (h.maximum n rfl) _).map rfl

theorem takes_table {limits : WasmLimits} (h : LimitsOk limits) (p : Nat) :
    Takes readTable p (writeTableType ⟨anyfunc, limits⟩) ⟨anyfunc, limits⟩ := by
  refine (takes_uint8 anyfunc p).bind ?_
  exact (takes_limits h _).map rfl

theorem takes_global {global : WasmGlobal} (h : InitOk global.initExpr) (p : Nat) :
    Takes readGlobal p (writeGlobal global) global := by
  obtain ⟨⟨type, isMutable⟩, e⟩ := global
  simp only [writeGlobal, writeGlobalType, List.append_assoc]
  refine (takes_uint8 type p).bind ?_
  refine (takes_varuint1 isMutable _).bind ?_
  exact (takes_initExpr h _).map rfl

def KindOk : WasmImportKind → Prop
  | .function sigIndex => sigIndex < 2 ^ 32
  | .table type => type.elemType = anyfunc ∧ LimitsOk type.limits
  | .memory limits => LimitsOk limits
  | .global _ => True

/-- Imports whose numbers fit their fields. -/
structure ImportOk (im : WasmImport) : Prop where
  module : im.module.length < 2 ^ 32
  field : im.field.length < 2 ^ 32
  kind : KindOk im.kind

theorem takes_import {im : WasmImport} (h : ImportOk im) (p : Nat) : Takes readImport p (writeImport im) im := by
  obtain ⟨module, field, kind⟩ := im
  obtain ⟨hmodule, hfield, hkind⟩ := h
  simp only [writeImport, List.append_assoc]
  refine (takes_string hmodule p).bind ?_
  refine (takes_string hfield _).bind ?_
  cases kind with
  | function sigIndex => exact (takes_uint8 0 _).bind ((takes_writeUleb128 hkind _).map rfl)
  | table type =>
    obtain ⟨elemType, limits⟩ := type
    obtain ⟨rfl, hlimits⟩ := hkind
    refine (takes_uint8 1 _).bind ((takes_table hlimits _).map ?_)
    rfl
  | memory limits => exact (takes_uint8 2 _).bind ((takes_limits hkind _).map rfl)
  | global type => exact (takes_uint8 3 _).bind ((takes_uint8 type.type _).bind ((takes_varuint1 type.isMutable _).map rfl))

/-- An export as it is read. -/
def readBack (ex : Lld.WasmExport) : WasmExport :=
  ⟨charBytes ex.name, UInt8.ofBitVec ex.kind, ex.index.toNat⟩

/-- Exports of functions and globals that are there. -/
structure ExportOk (obj : Object) (ex : Lld.WasmExport) : Prop where
  name : ex.name.length < 2 ^ 32
  kind : ex.kind.toNat < 4
  function : ex.kind = 0 → obj.isValidFunctionIndex ex.index.toNat = true
  global : ex.kind = 3 → obj.isValidGlobalIndex ex.index.toNat = true

theorem takes_export {obj : Object} {ex : Lld.WasmExport} (h : ExportOk obj ex) (p : Nat) :
    Takes (readExport obj) p (writeExport ex) (readBack ex) := by
  obtain ⟨name, kind, index⟩ := ex
  obtain ⟨hname, hkind, hfunction, hglobal⟩ := h
  have hlen : (charBytes name).length < 2 ^ 32 := by rwa [charBytes, List.length_map]
  have hcases : kind = 0 ∨ kind = 1 ∨ kind = 2 ∨ kind = 3 := by
    change kind.toNat < 4 at hkind
    bv_omega
  simp only [writeExport, List.append_assoc]
  refine (takes_string hlen p).bind ?_
  refine (takes_uint8 (UInt8.ofBitVec kind) _).bind ?_
  refine (takes_writeUleb128 index.isLt _).map ?_
  rcases hcases with rfl | rfl | rfl | rfl
  · have hvalid := hfunction rfl
    simp only [failIf, hvalid]
    rfl
  · rfl
  · rfl
  · have hvalid := hglobal rfl
    simp only [failIf, hvalid]
    rfl

theorem takes_elemSegment {indices : List Nat} (hlen : indices.length < 2 ^ 32)
    (hindices : ∀ i ∈ indices, i < 2 ^ 32) (offset : BitVec 32) (p : Nat) :
    Takes readElemSegment p (writeUleb128 0 ++ writeInitExpr (.i32Const offset) ++
      writeSize indices.length ++ indices.flatMap writeUleb128) ⟨0, .i32Const offset, indices⟩ := by
  simp only [List.append_assoc]
  refine (takes_writeUleb128 (by decide) p).bind ?_
  refine Accepts.peek (accepts_failIf (by decide) _) ?_
  refine (takes_initExpr (e := .i32Const offset) trivial _).bind ?_
  refine (takes_writeSize hlen _).bind ?_
  have hloop := fun q => takes_times id (fun i hi q => takes_writeUleb128 (hindices i hi) q) q
  rw [List.map_id] at hloop
  exact (hloop _).map rfl

/-! ## Data -/

theorem header_eq {Seg : Type} (S : OutputSegment Seg) : S.header =
    writeUleb128 0 ++ (writeInitExpr (.i32Const (BitVec.ofNat 32 S.startVA)) ++ writeUleb128 S.size) := by
  simp only [OutputSegment.header, writeInitExpr, List.append_assoc]
  rfl

theorem takes_segment {Seg : Type} {S : OutputSegment Seg} {content : List UInt8}
    (hsize : content.length = S.size) (hlt : S.size < 2 ^ 32) (p : Nat) :
    Takes readSegment p (S.header ++ content)
      ⟨0, .i32Const (BitVec.ofNat 32 S.startVA), content, p + S.header.length⟩ := by
  have hpos : p + S.header.length = p + (writeUleb128 0).length
      + (writeInitExpr (.i32Const (BitVec.ofNat 32 S.startVA))).length + (writeUleb128 S.size).length := by
    rw [header_eq, List.length_append, List.length_append]
    omega
  rw [hpos, header_eq]
  simp only [List.append_assoc]
  refine (takes_writeUleb128 (by decide) p).bind ?_
  refine (takes_initExpr (e := .i32Const _) trivial _).bind ?_
  refine (takes_writeUleb128 hlt _).bind ?_
  refine Accepts.peek (takes_getPtr _) (takes_getEnd fun e he => ?_)
  refine Accepts.peek (accepts_failIf ?_ _) ?_
  · omega
  · rw [← hsize]
    exact (takes_bytes content _).map rfl

/-! ## Functions -/

theorem takes_function {size decls code : List UInt8} {locals : List (Nat × UInt8)} (hg : IsGroup size)
    (hlen : size.length ≤ 10) (hval : value size = decls.length + code.length)
    (hlt : decls.length + code.length < 2 ^ 32) (hlocals : ∀ p, Takes readLocals p decls locals) (p : Nat) :
    Takes readFunction p (size ++ (decls ++ code))
      ⟨p, size.length + decls.length + code.length, size.length, locals, code⟩ := by
  have hcode : (BitVec.ofNat 32 (p + size.length + value size)
      - BitVec.ofNat 32 (p + size.length + decls.length)).toNat = code.length := by
    rw [hval, BitVec.toNat_sub, BitVec.toNat_ofNat, BitVec.toNat_ofNat]
    omega
  have hend : p + size.length + value size - p = size.length + decls.length + code.length := by omega
  have hstart : p + size.length - p = size.length := Nat.add_sub_cancel_left _ _
  refine Accepts.peek (takes_getPtr p) ?_
  refine (takes_varuint32 hg hlen (hval ▸ hlt) p).bind ?_
  refine Accepts.peek (takes_getPtr _) ?_
  refine (hlocals _).bind ?_
  refine Accepts.peek (takes_getPtr _) ?_
  simp only [hcode, hend, hstart]
  exact (takes_bytes code _).map rfl

end WasmObjectFile

end Lld
