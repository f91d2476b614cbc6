import WasmCdt.Lib.Cursor
import WasmCdt.Lib.Framed
import WasmCdt.Lld.Metadata
import Mathlib.Tactic.Ring

/-!
# The metadata's way from the printer to the reader

What the reader accepts, and what it makes of what the printer writes.

* `decodeULEB128_ok`: the groups that fit 64 bits.
* `readString_ok`, `readStrings_ok`: frames, the lengths taken modulo `2^32`.
* `parseList_ok`, `parseEosioABISection_ok`: any number of frames, and one.
* `emitSection_eq`: the printer's sections are frames.
* `parseSections_emit`, `parseSections_abis`: a module's metadata, with one ABI string and with more.
* `metadata_transport_iff`: **the modules and the sections for which the transport is right.**
-/

namespace Lld

namespace Metadata

open Cursor Framed Leb128

variable {sec : WasmSection} {obj : WasmObject}

/-! ## Numbers -/

/-- What is lost when a word is shifted there and back. -/
theorem shift_back_eq_iff {x : BitVec 64} {s : Nat} (hs : s < 64) :
    x <<< s >>> s = x ↔ x.toNat * 2 ^ s < 2 ^ 64 := by
  have hpow : 2 ^ 64 = 2 ^ (64 - s) * 2 ^ s := by
    rw [← Nat.pow_add]
    congr 1
    omega
  have hback : (x <<< s >>> s).toNat = x.toNat % 2 ^ (64 - s) := by
    rw [BitVec.toNat_ushiftRight, BitVec.toNat_shiftLeft, Nat.shiftLeft_eq, Nat.shiftRight_eq_div_pow,
      hpow, Nat.mul_mod_mul_right, Nat.mul_div_cancel _ (Nat.two_pow_pos s)]
  rw [hpow, Nat.mul_lt_mul_right (Nat.two_pow_pos s), ← BitVec.toNat_inj, hback]
  constructor
  · intro h
    rw [← h]
    exact Nat.mod_lt _ (Nat.two_pow_pos _)
  · exact Nat.mod_eq_of_lt

theorem slice_toNat (b : UInt8) : ((b &&& 0x7f).toBitVec.setWidth 64).toNat = b.toNat % 128 := by
  have hand : (b &&& 0x7f).toBitVec.toNat = b.toNat % 128 := by
    rw [UInt8.toBitVec_and, BitVec.toNat_and]
    exact Nat.and_two_pow_sub_one_eq_mod b.toNat 7
  rw [BitVec.toNat_setWidth, hand]
  omega

theorem byteAt_eq {p : Nat} {b : UInt8} {t : List UInt8} (h : Reads sec.content p (b :: t)) :
    byteAt sec p = b := by
  unfold byteAt
  rw [h.getD_eq]
  rfl

/-- Below `2^64`, multiples of a power of two leave room for what is less than the power. -/
theorem add_lt_of_mul {a x s : Nat} (ha : a < 2 ^ s) (hs : s ≤ 64) (hx : x * 2 ^ s < 2 ^ 64) :
    a + x * 2 ^ s < 2 ^ 64 := by
  have hpow : 2 ^ 64 = 2 ^ (64 - s) * 2 ^ s := by
    rw [← Nat.pow_add, Nat.sub_add_cancel hs]
  rw [hpow, Nat.mul_lt_mul_right (Nat.two_pow_pos s)] at hx
  have hle : (x + 1) * 2 ^ s ≤ 2 ^ 64 := by
    rw [hpow]
    exact Nat.mul_le_mul_right _ hx
  rw [Nat.add_mul] at hle
  omega

/-- The loop's test: the group's seven bits fit behind those read before. -/
theorem too_big_iff (b : UInt8) (shift : Nat) :
    ¬ (shift ≥ 64 ∨ (b &&& 0x7f).toBitVec.setWidth 64 <<< shift >>> shift
        ≠ (b &&& 0x7f).toBitVec.setWidth 64) ↔
      shift < 64 ∧ b.toNat % 128 * 2 ^ shift < 2 ^ 64 := by
  rw [not_or, not_not, Nat.not_le]
  constructor
  · intro h
    obtain ⟨hs, hback⟩ := h
    rw [shift_back_eq_iff hs, slice_toNat] at hback
    exact ⟨hs, hback⟩
  · intro h
    obtain ⟨hs, hfits⟩ := h
    rw [shift_back_eq_iff hs, slice_toNat]
    exact ⟨hs, hfits⟩

theorem add_slice_toNat {b : UInt8} {acc : BitVec 64} {shift : Nat} (hacc : acc.toNat < 2 ^ shift)
    (hs : shift < 64) (hfits : b.toNat % 128 * 2 ^ shift < 2 ^ 64) :
    (acc + (b &&& 0x7f).toBitVec.setWidth 64 <<< shift).toNat
      = acc.toNat + b.toNat % 128 * 2 ^ shift := by
  have hroom := add_lt_of_mul hacc (Nat.le_of_lt hs) hfits
  rw [BitVec.toNat_add, BitVec.toNat_shiftLeft, Nat.shiftLeft_eq, slice_toNat, Nat.mod_eq_of_lt hfits,
    Nat.mod_eq_of_lt hroom]

/-- A group that starts at `shift` within 64 bits. -/
def FitsAt (shift : Nat) (g : List UInt8) : Prop :=
  shift + 7 * (g.length - 1) < 64 ∧ value g * 2 ^ shift < 2 ^ 64

theorem fitsAt_single {b : UInt8} {shift : Nat} :
    FitsAt shift [b] ↔ shift < 64 ∧ b.toNat % 128 * 2 ^ shift < 2 ^ 64 := by
  simp [FitsAt, value]

theorem fitsAt_cons {b : UInt8} {g : List UInt8} {shift : Nat} (hg : 0 < g.length) :
    FitsAt shift (b :: g) ↔
      (shift < 64 ∧ b.toNat % 128 * 2 ^ shift < 2 ^ 64) ∧ FitsAt (shift + 7) g := by
  have hvalue : value (b :: g) * 2 ^ shift
      = b.toNat % 128 * 2 ^ shift + value g * 2 ^ (shift + 7) := by
    rw [value, Nat.pow_add]
    ring
  have hlen : shift + 7 * ((b :: g).length - 1) = shift + 7 + 7 * (g.length - 1) := by
    rw [List.length_cons]
    omega
  unfold FitsAt
  rw [hvalue, hlen]
  constructor
  · intro h
    omega
  · intro h
    obtain ⟨⟨hs, hb⟩, hshift, hg⟩ := h
    refine ⟨hshift, add_lt_of_mul ?_ (by omega) hg⟩
    rw [Nat.pow_add, Nat.mul_comm]
    exact Nat.mul_lt_mul_of_pos_left (Nat.mod_lt _ (by decide)) (Nat.two_pow_pos shift)

theorem decodeULEB128_nil {p shift : Nat} {acc : BitVec 64} (h : Reads sec.content p []) :
    decodeULEB128 sec p acc shift = .error (.fatal "malformed uleb128, extends past end") := by
  have hend : p = ctxEnd sec := h.eq_nil_iff.2 rfl
  rw [decodeULEB128, if_pos hend]

theorem decodeULEB128_cons {b : UInt8} {t : List UInt8} {p shift : Nat} {acc : BitVec 64}
    (h : Reads sec.content p (b :: t)) :
    decodeULEB128 sec p acc shift =
      if shift < 64 ∧ b.toNat % 128 * 2 ^ shift < 2 ^ 64 then
        if b ≥ 128 then
          decodeULEB128 sec (p + 1) (acc + (b &&& 0x7f).toBitVec.setWidth 64 <<< shift) (shift + 7)
        else .ok (acc + (b &&& 0x7f).toBitVec.setWidth 64 <<< shift, p + 1)
      else .error (.fatal "uleb128 too big for uint64") := by
  have hp : ¬ p = ctxEnd sec := fun hend => List.cons_ne_nil b t (h.eq_nil_iff.1 hend)
  rw [decodeULEB128, if_neg hp]
  simp only [byteAt_eq h]
  by_cases hfits : shift < 64 ∧ b.toNat % 128 * 2 ^ shift < 2 ^ 64
  · rw [if_pos hfits, dif_neg ((too_big_iff b shift).2 hfits)]
  · rw [if_neg hfits, dif_pos (not_not.1 (mt (too_big_iff b shift).1 hfits))]

/-- **The groups that are read**: those that fit 64 bits, with zeros in front or not. -/
theorem decodeULEB128_ok {t : List UInt8} {p k shift : Nat} {acc v : BitVec 64}
    (h : Reads sec.content p t) (hacc : acc.toNat < 2 ^ shift) :
    decodeULEB128 sec p acc shift = .ok (v, k) ↔
      ∃ g rest, t = g ++ rest ∧ IsGroup g ∧ FitsAt shift g ∧
        v.toNat = acc.toNat + value g * 2 ^ shift ∧ k = p + g.length := by
  induction t generalizing p acc shift with
  | nil =>
    rw [decodeULEB128_nil h]
    constructor
    · intro hok
      cases hok
    · intro hgroup
      obtain ⟨g, rest, hsplit, hg, -⟩ := hgroup
      obtain ⟨rfl, -⟩ := List.append_eq_nil_iff.1 hsplit.symm
      exact hg.elim
  | cons b t ih =>
    rw [decodeULEB128_cons h]
    by_cases hfits : shift < 64 ∧ b.toNat % 128 * 2 ^ shift < 2 ^ 64
    · obtain ⟨hs, hb⟩ := hfits
      have hsum := add_slice_toNat hacc hs hb
      rw [if_pos ⟨hs, hb⟩]
      by_cases hmore : b ≥ 128
      · have hbig : ¬ b.toNat < 128 := Nat.not_lt.2 (UInt8.le_iff_toNat_le.1 hmore)
        have hacc' : (acc + (b &&& 0x7f).toBitVec.setWidth 64 <<< shift).toNat < 2 ^ (shift + 7) := by
          rw [hsum, Nat.pow_add]
          have hlt : b.toNat % 128 + 1 ≤ 2 ^ 7 := Nat.mod_lt _ (by decide)
          have hmul := Nat.mul_le_mul_right (2 ^ shift) hlt
          rw [Nat.add_mul] at hmul
          rw [Nat.mul_comm (2 ^ shift)]
          omega
        rw [if_pos hmore, ih h.next hacc', hsum]
        constructor
        · intro hok
          obtain ⟨g, rest, rfl, hg, hgfits, hv, rfl⟩ := hok
          refine ⟨b :: g, rest, rfl, ?_, (fitsAt_cons hg.length_pos).2 ⟨⟨hs, hb⟩, hgfits⟩, ?_, ?_⟩
          · rwa [IsGroup, if_neg hbig]
          · rw [hv, value, Nat.pow_add]
            ring
          · rw [List.length_cons]
            omega
        · intro hgroup
          obtain ⟨g, rest, hsplit, hg, hgfits, hv, rfl⟩ := hgroup
          cases g with
          | nil => exact hg.elim
          | cons c g =>
            obtain ⟨rfl, rfl⟩ := List.cons.inj hsplit
            rw [IsGroup, if_neg hbig] at hg
            refine ⟨g, rest, rfl, hg, ((fitsAt_cons hg.length_pos).1 hgfits).2, ?_, ?_⟩
            · rw [hv, value, Nat.pow_add]
              ring
            · rw [List.length_cons]
              omega
      · have hlast : b.toNat < 128 := Nat.not_le.1 fun hle => hmore (UInt8.le_iff_toNat_le.2 hle)
        have hvalue : value [b] = b.toNat % 128 := by simp [value]
        rw [if_neg hmore]
        constructor
        · intro hok
          obtain ⟨rfl, rfl⟩ := Prod.mk.inj (Except.ok.inj hok)
          refine ⟨[b], t, rfl, ?_, fitsAt_single.2 ⟨hs, hb⟩, ?_, rfl⟩
          · rw [IsGroup, if_pos hlast]
          · rw [hsum, hvalue]
        · intro hgroup
          obtain ⟨g, rest, hsplit, hg, -, hv, rfl⟩ := hgroup
          cases g with
          | nil => exact hg.elim
          | cons c g =>
            obtain ⟨rfl, rfl⟩ := List.cons.inj hsplit
            rw [IsGroup, if_pos hlast] at hg
            subst hg
            rw [hvalue, ← hsum] at hv
            rw [BitVec.toNat_inj.1 hv]
            rfl
    · rw [if_neg hfits]
      constructor
      · intro hok
        cases hok
      · intro hgroup
        obtain ⟨g, rest, hsplit, hg, hgfits, -, -⟩ := hgroup
        cases g with
        | nil => exact hg.elim
        | cons c g =>
          obtain ⟨rfl, rfl⟩ := List.cons.inj hsplit
          cases g with
          | nil => exact absurd (fitsAt_single.1 hgfits) hfits
          | cons d g => exact absurd ((fitsAt_cons (g := d :: g) (Nat.succ_pos _)).1 hgfits).1 hfits

/-- A group that `readULEB128` takes. -/
structure Fits (g : List UInt8) : Prop where
  group : IsGroup g
  length_le : g.length ≤ 10
  value_lt : value g < 2 ^ 64

theorem readULEB128_ok {t : List UInt8} {ptr k : Nat} {v : BitVec 64}
    (h : Reads sec.content ptr t) :
    readULEB128 sec ptr = .ok (v, k) ↔
      ∃ g rest, t = g ++ rest ∧ Fits g ∧ v.toNat = value g ∧ k = ptr + g.length := by
  have hzero : (0 : BitVec 64).toNat < 2 ^ 0 := by decide
  unfold readULEB128
  rw [decodeULEB128_ok h hzero]
  constructor
  · intro hok
    obtain ⟨g, rest, hsplit, hg, ⟨hlen, hlt⟩, hv, hk⟩ := hok
    rw [Nat.pow_zero, Nat.mul_one] at hlt hv
    refine ⟨g, rest, hsplit, ⟨hg, by omega, hlt⟩, ?_, hk⟩
    rw [hv]
    exact Nat.zero_add _
  · intro hok
    obtain ⟨g, rest, hsplit, ⟨hg, hlen, hlt⟩, hv, hk⟩ := hok
    refine ⟨g, rest, hsplit, hg, ⟨by omega, ?_⟩, ?_, hk⟩
    · rwa [Nat.pow_zero, Nat.mul_one]
    · rw [hv, Nat.pow_zero, Nat.mul_one]
      exact (Nat.zero_add _).symm

/-! ## Strings -/

/-- A frame as the reader takes it: the length is the group's value modulo `2^32`. -/
structure Narrow (f : Frame) : Prop where
  fits : Fits f.size
  length : f.payload.length = value f.size % 2 ^ 32

theorem range_byteAt {s t : List UInt8} {p : Nat} (h : Reads sec.content p (s ++ t)) :
    ((List.range s.length).map fun i => byteAt sec (p + i)) = s := by
  apply List.ext_getElem
  · rw [List.length_map, List.length_range]
  · intro i hi hi'
    have hsplit : Reads sec.content p (s.take i ++ (s.drop i ++ t)) := by
      rwa [← List.append_assoc, List.take_append_drop]
    have hthere := hsplit.advance
    rw [List.length_take, Nat.min_eq_left (Nat.le_of_lt hi'), List.drop_eq_getElem_cons hi'] at hthere
    rw [List.getElem_map, List.getElem_range, byteAt_eq hthere]

theorem readString_eq (ptr : Nat) : readString sec ptr =
    match readULEB128 sec ptr with
    | .error e => .error e
    | .ok (size, k) =>
      if k + (size.setWidth 32).toNat > ctxEnd sec then .error (.fatal "EOF while reading string")
      else .ok ((List.range (size.setWidth 32).toNat).map fun i => byteAt sec (k + i),
        k + (size.setWidth 32).toNat) := by
  unfold readString
  cases readULEB128 sec ptr with
  | error e => rfl
  | ok pair => rfl

/-- **The strings that are read.** -/
theorem readString_ok {t s : List UInt8} {ptr k : Nat} (h : Reads sec.content ptr t) :
    readString sec ptr = .ok (s, k) ↔
      ∃ f rest, t = f.bytes ++ rest ∧ Narrow f ∧ s = f.payload ∧ k = ptr + f.bytes.length := by
  rw [readString_eq]
  constructor
  · intro hok
    split at hok
    · cases hok
    · rename_i size j hsize
      obtain ⟨g, rest, rfl, hg, hv, rfl⟩ := (readULEB128_ok h).1 hsize
      have hlen : (size.setWidth 32).toNat = value g % 2 ^ 32 := by
        rw [BitVec.toNat_setWidth, hv]
      rw [hlen] at hok
      split at hok
      · cases hok
      · rename_i hin
        obtain ⟨hs, hk⟩ := Prod.mk.inj (Except.ok.inj hok)
        have htotal := h.advance.length
        have hlong : value g % 2 ^ 32 ≤ rest.length := by
          unfold ctxEnd at hin
          omega
        have hpayload : (rest.take (value g % 2 ^ 32)).length = value g % 2 ^ 32 := by
          rw [List.length_take, Nat.min_eq_left hlong]
        refine ⟨⟨g, rest.take (value g % 2 ^ 32)⟩, rest.drop (value g % 2 ^ 32), ?_, ⟨hg, hpayload⟩, ?_, ?_⟩
        · rw [Frame.bytes, List.append_assoc, List.take_append_drop]
        · have hsplit := h.advance
          rw [← List.take_append_drop (value g % 2 ^ 32) rest] at hsplit
          have hread := range_byteAt hsplit
          rw [hpayload] at hread
          rw [← hs, hread]
        · rw [← hk, Frame.length_bytes]
          simp only [hpayload]
          exact Nat.add_assoc _ _ _
  · intro hframe
    obtain ⟨f, rest, rfl, ⟨hfits, hlen⟩, rfl, rfl⟩ := hframe
    unfold Frame.bytes at h
    rw [List.append_assoc] at h
    have hv : (BitVec.ofNat 64 (value f.size)).toNat = value f.size := by
      rw [BitVec.toNat_ofNat, Nat.mod_eq_of_lt hfits.value_lt]
    have hsize : readULEB128 sec ptr = .ok (BitVec.ofNat 64 (value f.size), ptr + f.size.length) :=
      (readULEB128_ok h).2 ⟨f.size, _, rfl, hfits, hv, rfl⟩
    have hnarrow : ((BitVec.ofNat 64 (value f.size)).setWidth 32).toNat = f.payload.length := by
      rw [BitVec.toNat_setWidth, hv, hlen]
    have hin : ¬ ptr + f.size.length + f.payload.length > ctxEnd sec := by
      have htotal := h.advance.length
      rw [List.length_append] at htotal
      unfold ctxEnd
      omega
    rw [hsize]
    simp only [hnarrow]
    rw [if_neg hin, range_byteAt h.advance, Frame.length_bytes, Nat.add_assoc]

theorem readStrings_eq (ptr : Nat) (strings : List (List UInt8)) : readStrings sec ptr strings =
    if ptr < ctxEnd sec then
      match readString sec ptr with
      | .error e => .error e
      | .ok (s, k) => readStrings sec k (strings ++ [s])
    else .ok (strings, ptr) := by
  rw [readStrings]
  split
  · split
    · rename_i hread
      rw [hread]
    · rename_i hread
      rw [hread]
  · rfl

theorem readStrings_sequence {fs : List Frame} {ptr : Nat} {strings : List (List UInt8)}
    (h : Reads sec.content ptr (sequence fs)) (hfs : ∀ f ∈ fs, Narrow f) :
    readStrings sec ptr strings = .ok (strings ++ fs.map Frame.payload, ctxEnd sec) := by
  induction fs generalizing ptr strings with
  | nil =>
    have hend : ptr = ctxEnd sec := h.eq_nil_iff.2 rfl
    rw [readStrings_eq, if_neg (Nat.not_lt.2 (Nat.le_of_eq hend.symm)), hend, List.map_nil,
      List.append_nil]
  | cons f fs ih =>
    have hf : Narrow f := hfs f (.head _)
    rw [sequence_cons] at h
    have hin : ptr < ctxEnd sec := by
      have hpos := hf.fits.group.length_pos
      have hlen := h.length
      rw [List.length_append, Frame.length_bytes] at hlen
      unfold ctxEnd
      omega
    have hread := (readString_ok h).2 ⟨f, _, rfl, hf, rfl, rfl⟩
    rw [readStrings_eq, if_pos hin, hread]
    simp only
    rw [ih h.advance fun g hg => hfs g (.tail _ hg), List.append_assoc]
    rfl

/-- **The lists that are read.** -/
theorem readStrings_ok {t : List UInt8} {ptr k : Nat} {strings ss : List (List UInt8)}
    (h : Reads sec.content ptr t) :
    readStrings sec ptr strings = .ok (ss, k) ↔
      ∃ fs, t = sequence fs ∧ (∀ f ∈ fs, Narrow f) ∧ ss = strings ++ fs.map Frame.payload ∧
        k = ctxEnd sec := by
  constructor
  · intro hok
    fun_induction readStrings sec ptr strings generalizing t with
    | case1 => cases hok
    | case2 ptr strings hin s j hread ih =>
      obtain ⟨f, rest, rfl, hf, rfl, rfl⟩ := (readString_ok h).1 hread
      obtain ⟨fs, rfl, hfs, hss, hk⟩ := ih h.advance hok
      refine ⟨f :: fs, (sequence_cons f fs).symm, List.forall_mem_cons.2 ⟨hf, hfs⟩, ?_, hk⟩
      rw [hss, List.append_assoc]
      rfl
    | case3 ptr strings hout =>
      obtain ⟨rfl, rfl⟩ := Prod.mk.inj (Except.ok.inj hok)
      have hend : ptr = sec.content.length := Nat.le_antisymm h.le (Nat.not_lt.1 hout)
      refine ⟨[], h.eq_nil_iff.1 hend, List.forall_mem_nil _, ?_, hend⟩
      rw [List.map_nil, List.append_nil]
  · intro hseq
    obtain ⟨fs, rfl, hfs, rfl, rfl⟩ := hseq
    exact readStrings_sequence h hfs

/-! ## Sections -/

theorem parseList_ok {what : String} {push : List (List UInt8) → WasmObject}
    {strings : List (List UInt8)} : parseList what push strings sec = .ok obj ↔
      ∃ fs, sec.content = sequence fs ∧ (∀ f ∈ fs, Narrow f) ∧
        obj = push (strings ++ fs.map Frame.payload) := by
  have hstart := reads_start sec.content
  unfold parseList
  constructor
  · intro hok
    cases hread : readStrings sec 0 strings with
    | error e =>
      rw [hread] at hok
      cases hok
    | ok pair =>
      obtain ⟨fs, hsplit, hfs, hss, hk⟩ := (readStrings_ok hstart).1 hread
      rw [hread] at hok
      have hpush : (if pair.2 ≠ ctxEnd sec then
          Except.error (Error.parseFailed (what ++ " section ended prematurely"))
        else .ok (push pair.1)) = .ok obj := hok
      rw [if_neg (not_not_intro hk), hss] at hpush
      exact ⟨fs, hsplit, hfs, (Except.ok.inj hpush).symm⟩
  · intro hseq
    obtain ⟨fs, hsplit, hfs, rfl⟩ := hseq
    rw [(readStrings_ok hstart).2 ⟨fs, hsplit, hfs, rfl, rfl⟩]
    exact if_neg (not_not_intro rfl)

theorem parseEosioABISection_eq : parseEosioABISection sec obj =
    match readString sec 0 with
    | .error e => .error e
    | .ok (sr, ptr) =>
      if ptr ≠ ctxEnd sec then .error (.parseFailed "eosio abi section ended prematurely")
      else .ok { obj with eosioAbi := sr } := by
  unfold parseEosioABISection
  cases readString sec 0 with
  | error e => rfl
  | ok pair => rfl

/-- Behind the first string the section is over, or refused. -/
theorem parseEosioABISection_frame {f : Frame} {rest : List UInt8} (hf : Narrow f)
    (h : sec.content = f.bytes ++ rest) : parseEosioABISection sec obj =
      if rest = [] then .ok { obj with eosioAbi := f.payload }
      else .error (.parseFailed "eosio abi section ended prematurely") := by
  have hstart : Reads sec.content 0 (f.bytes ++ rest) := h ▸ reads_start sec.content
  have hread := (readString_ok hstart).2 ⟨f, rest, rfl, hf, rfl, rfl⟩
  have hend : 0 + f.bytes.length = ctxEnd sec ↔ rest = [] := hstart.advance.eq_nil_iff
  rw [parseEosioABISection_eq, hread]
  simp only
  by_cases hrest : rest = []
  · rw [if_neg (not_not_intro (hend.2 hrest)), if_pos hrest]
  · rw [if_pos (mt hend.1 hrest), if_neg hrest]

theorem parseEosioABISection_ok {obj' : WasmObject} : parseEosioABISection sec obj = .ok obj' ↔
      ∃ f : Frame, sec.content = f.bytes ∧ Narrow f ∧ obj' = { obj with eosioAbi := f.payload } := by
  constructor
  · intro hok
    cases hread : readString sec 0 with
    | error e =>
      rw [parseEosioABISection_eq, hread] at hok
      cases hok
    | ok pair =>
      obtain ⟨f, rest, hsplit, hf, -, -⟩ := (readString_ok (reads_start sec.content)).1 hread
      rw [parseEosioABISection_frame hf hsplit] at hok
      split at hok
      · rename_i hrest
        rw [hrest, List.append_nil] at hsplit
        exact ⟨f, hsplit, hf, (Except.ok.inj hok).symm⟩
      · cases hok
  · intro hframe
    obtain ⟨f, hsplit, hf, rfl⟩ := hframe
    have hall : sec.content = f.bytes ++ [] := by rw [hsplit, List.append_nil]
    rw [parseEosioABISection_frame hf hall, if_pos rfl]

/-- The names of the sections with metadata. -/
def IsMetadata (sec : WasmSection) : Prop :=
  sec.name = importsSection ∨ sec.name = abiSection ∨ sec.name = actionsSection ∨
    sec.name = notifySection

/-- The frames that the reader takes a section for. -/
structure Accepted (sec : WasmSection) (fs : List Frame) : Prop where
  content : sec.content = sequence fs
  narrow : ∀ f ∈ fs, Narrow f
  single : sec.name = abiSection → fs.length = 1

/-- **The sections that are accepted.** -/
theorem parseCustomSection_ok (hname : IsMetadata sec) :
    (∃ obj', parseCustomSection sec obj = .ok obj') ↔ ∃ fs, Accepted sec fs := by
  have habi : importsSection ≠ abiSection ∧ actionsSection ≠ abiSection ∧
      notifySection ≠ abiSection := by decide
  by_cases heq : sec.name = abiSection
  · have hi : ¬ sec.name = importsSection := fun h => habi.1 (h.symm.trans heq)
    unfold parseCustomSection
    rw [if_neg hi, if_pos heq]
    constructor
    · intro hok
      obtain ⟨obj', hok⟩ := hok
      obtain ⟨f, hsplit, hf, -⟩ := parseEosioABISection_ok.1 hok
      refine ⟨[f], ?_, List.forall_mem_singleton.2 hf, fun _ => rfl⟩
      rw [hsplit, sequence_cons, sequence_nil, List.append_nil]
    · intro hacc
      obtain ⟨fs, hsplit, hfs, hone⟩ := hacc
      obtain ⟨f, rfl⟩ := List.length_eq_one_iff.1 (hone heq)
      rw [sequence_cons, sequence_nil, List.append_nil] at hsplit
      exact ⟨_, parseEosioABISection_ok.2 ⟨f, hsplit, hfs f (.head _), rfl⟩⟩
  · have hlist : ∃ what push strings, parseCustomSection sec obj = parseList what push strings sec := by
      unfold parseCustomSection
      rw [if_neg heq]
      by_cases hi : sec.name = importsSection
      · rw [if_pos hi]
        exact ⟨_, _, _, rfl⟩
      rw [if_neg hi]
      by_cases ha : sec.name = actionsSection
      · rw [if_pos ha]
        exact ⟨_, _, _, rfl⟩
      have hn : sec.name = notifySection :=
        ((hname.resolve_left hi).resolve_left heq).resolve_left ha
      rw [if_neg ha, if_pos hn]
      exact ⟨_, _, _, rfl⟩
    obtain ⟨what, push, strings, hlist⟩ := hlist
    rw [hlist]
    constructor
    · intro hok
      obtain ⟨obj', hok⟩ := hok
      obtain ⟨fs, hsplit, hfs, -⟩ := parseList_ok.1 hok
      exact ⟨fs, hsplit, hfs, fun h => absurd h heq⟩
    · intro hacc
      obtain ⟨fs, hsplit, hfs, -⟩ := hacc
      exact ⟨_, parseList_ok.2 ⟨fs, hsplit, hfs, rfl⟩⟩

/-- Where an exact reading exists, the reader's lengths are the true ones if no group reaches
`2^32`. -/
theorem exact_of_narrow {f : Frame} (hf : Narrow f) (hlt : value f.size < 2 ^ 32) : f.Exact :=
  ⟨hf.fits.group, by rw [hf.length, Nat.mod_eq_of_lt hlt]⟩

/-- A section that is taken for frames with a length from `2^32` on. -/
def Narrowed (sec : WasmSection) : Prop :=
  ∃ fs, Accepted sec fs ∧ ∃ f ∈ fs, 2 ^ 32 ≤ value f.size

/-- The parse of the section fails. -/
def Rejected (sec : WasmSection) (obj : WasmObject) : Prop :=
  ∃ e, parseCustomSection sec obj = .error e

theorem rejected_iff : Rejected sec obj ↔ ¬ ∃ obj', parseCustomSection sec obj = .ok obj' := by
  unfold Rejected
  cases parseCustomSection sec obj with
  | error e =>
    constructor
    · intro _ hok
      obtain ⟨obj', hok⟩ := hok
      cases hok
    · intro _
      exact ⟨e, rfl⟩
  | ok obj' =>
    constructor
    · intro herror
      obtain ⟨e, herror⟩ := herror
      cases herror
    · intro hok
      exact absurd ⟨obj', rfl⟩ hok

/-- **What is not a sequence of strings is refused**, unless a length is narrowed. -/
theorem rejected_of_not_sequence_iff (hname : IsMetadata sec) (hsize : sec.content.length < 2 ^ 32) :
    (¬ IsSequence sec.content → Rejected sec obj) ↔ ¬ Narrowed sec := by
  constructor
  · intro hrejected hnarrowed
    obtain ⟨fs, hacc, f, hf, hbig⟩ := hnarrowed
    refine rejected_iff.1 (hrejected fun hseq => ?_) ((parseCustomSection_ok hname).2 ⟨fs, hacc⟩)
    obtain ⟨gs, hsplit, hgs⟩ := hseq
    have hlt : ∀ f ∈ fs, value f.size < 2 ^ 32 :=
      sizes_lt (fun f hf => ⟨(hacc.narrow f hf).fits.group, (hacc.narrow f hf).length⟩) hgs
        (hacc.content.symm.trans hsplit) (hacc.content ▸ hsize)
    exact absurd (hlt f hf) (Nat.not_lt.2 hbig)
  · intro hnarrowed hseq
    refine rejected_iff.2 fun hok => hseq ?_
    obtain ⟨fs, hacc⟩ := (parseCustomSection_ok hname).1 hok
    refine ⟨fs, hacc.content, fun f hf => exact_of_narrow (hacc.narrow f hf) ?_⟩
    exact Nat.not_le.1 fun hbig => hnarrowed ⟨fs, hacc, f, hf, hbig⟩

/-! ## The memory behind a section -/

/-- The section with other memory behind it. -/
def WasmSection.moved (sec : WasmSection) (behind : Nat → UInt8) : WasmSection :=
  { sec with behind := behind }

variable (behind : Nat → UInt8)

@[simp] theorem ctxEnd_moved : ctxEnd (sec.moved behind) = ctxEnd sec := rfl

theorem byteAt_moved {p : Nat} (hp : p < ctxEnd sec) :
    byteAt (sec.moved behind) p = byteAt sec p := by
  unfold byteAt WasmSection.moved
  rw [List.getD_eq_getElem?_getD, List.getD_eq_getElem?_getD, List.getElem?_eq_getElem hp]
  rfl

theorem decodeULEB128_moved {p shift : Nat} {acc : BitVec 64} (hp : p ≤ ctxEnd sec) :
    decodeULEB128 (sec.moved behind) p acc shift = decodeULEB128 sec p acc shift := by
  fun_induction decodeULEB128 sec p acc shift with
  | case1 acc shift => rw [decodeULEB128, ctxEnd_moved, if_pos rfl]
  | case2 p acc shift hend slice hbig =>
    have hbyte := byteAt_moved behind (Nat.lt_of_le_of_ne hp hend)
    rw [decodeULEB128, ctxEnd_moved, if_neg hend]
    simp only [hbyte]
    exact dif_pos hbig
  | case3 p acc shift hend slice hbig value hmore ih =>
    have hlt := Nat.lt_of_le_of_ne hp hend
    have hbyte := byteAt_moved behind hlt
    rw [decodeULEB128, ctxEnd_moved, if_neg hend]
    simp only [hbyte]
    rw [dif_neg hbig, if_pos hmore]
    exact ih hlt
  | case4 p acc shift hend slice hbig value hmore =>
    have hbyte := byteAt_moved behind (Nat.lt_of_le_of_ne hp hend)
    rw [decodeULEB128, ctxEnd_moved, if_neg hend]
    simp only [hbyte]
    rw [dif_neg hbig, if_neg hmore]

theorem readString_moved {ptr : Nat} (hptr : ptr ≤ ctxEnd sec) :
    readString (sec.moved behind) ptr = readString sec ptr := by
  have hsize : readULEB128 (sec.moved behind) ptr = readULEB128 sec ptr :=
    decodeULEB128_moved behind hptr
  rw [readString_eq, readString_eq, hsize]
  split
  · rfl
  · split
    · rename_i hlong
      rw [ctxEnd_moved] at hlong
      rw [if_pos hlong]
    · rename_i hin
      rw [ctxEnd_moved] at hin
      rw [if_neg hin]
      congr 2
      refine List.map_congr_left fun i hi => byteAt_moved behind ?_
      rw [List.mem_range] at hi
      omega

theorem readString_le {ptr k : Nat} {s : List UInt8}
    (h : readString sec ptr = .ok (s, k)) : k ≤ ctxEnd sec := by
  rw [readString_eq] at h
  split at h
  · cases h
  · split at h
    · cases h
    · rename_i hin
      obtain ⟨-, rfl⟩ := Prod.mk.inj (Except.ok.inj h)
      exact Nat.not_lt.1 hin

theorem readStrings_moved {ptr : Nat} {strings : List (List UInt8)} : ptr ≤ ctxEnd sec →
    readStrings (sec.moved behind) ptr strings = readStrings sec ptr strings := by
  fun_induction readStrings sec ptr strings with
  | case1 ptr strings hin e hread =>
    intro hptr
    rw [readStrings_eq, ctxEnd_moved, if_pos hin, readString_moved behind hptr, hread]
  | case2 ptr strings hin s k hread ih =>
    intro hptr
    rw [readStrings_eq, ctxEnd_moved, if_pos hin, readString_moved behind hptr, hread]
    exact ih (readString_le hread)
  | case3 ptr strings hout =>
    intro _
    rw [readStrings_eq, ctxEnd_moved, if_neg hout]

theorem parseList_moved {what : String} {push : List (List UInt8) → WasmObject}
    {strings : List (List UInt8)} :
    parseList what push strings (sec.moved behind) = parseList what push strings sec := by
  unfold parseList
  rw [readStrings_moved behind (Nat.zero_le _)]
  rfl

theorem parseEosioABISection_moved :
    parseEosioABISection (sec.moved behind) obj = parseEosioABISection sec obj := by
  rw [parseEosioABISection_eq, parseEosioABISection_eq, readString_moved behind (Nat.zero_le _)]
  rfl

/-- **Nothing behind the section is read.** -/
theorem parseCustomSection_moved :
    parseCustomSection (sec.moved behind) obj = parseCustomSection sec obj := by
  have hname : (sec.moved behind).name = sec.name := rfl
  unfold parseCustomSection parseAllowedSection parseActionsSection parseNotifySection
  rw [hname, parseList_moved, parseEosioABISection_moved, parseList_moved, parseList_moved]

/-! ## Modules -/

/-- The strings of an attribute in function order. -/
abbrev strings (attr : Function → Option (List UInt8)) (M : Module) : List (List UInt8) :=
  M.filterMap attr

theorem emitSection_eq (name : Text) (attr : Function → Option (List UInt8)) (M : Module) :
    emitSection name attr M =
      if strings attr M = [] then [] else [(name, sequence ((strings attr M).map Frame.of))] := by
  have hcontent : ∀ M : Module, (M.flatMap fun F => ((attr F).map emitString).getD [])
      = sequence ((strings attr M).map Frame.of) := by
    intro M
    induction M with
    | nil => rfl
    | cons F M ih =>
      rw [List.flatMap_cons, ih]
      unfold strings
      rw [List.filterMap_cons]
      cases attr F with
      | none => rfl
      | some s => rfl
  have hany : (M.any fun F => (attr F).isSome) = true ↔ strings attr M ≠ [] := by
    rw [Ne, List.filterMap_eq_nil_iff, List.any_eq_true]
    simp only [Option.isSome_iff_ne_none, not_forall, exists_prop]
  unfold emitSection
  by_cases hnil : strings attr M = []
  · rw [if_pos hnil, if_neg (mt hany.1 (not_not_intro hnil))]
  · rw [if_neg hnil, if_pos (hany.2 hnil), hcontent]

theorem narrow_of {s : List UInt8} (hs : s.length < 2 ^ 32) : Narrow (Frame.of s) := by
  obtain ⟨hgroup, hvalue⟩ := Frame.exact_of s
  change value (encodeU s.length) = s.length at hvalue
  have hlen : (encodeU s.length).length ≤ 5 :=
    encodeU_length (Nat.lt_trans hs (by decide)) (by decide)
  refine ⟨⟨hgroup, by simp only [Frame.of]; omega, ?_⟩, ?_⟩
  · exact (hvalue.trans_lt hs).trans (by decide)
  · simp only [Frame.of]
    rw [hvalue, Nat.mod_eq_of_lt hs]

theorem parseSections_cons (secs : List WasmSection) : parseSections (sec :: secs) obj =
    match parseCustomSection sec obj with
    | .error e => .error e
    | .ok obj' => parseSections secs obj' := by
  rw [parseSections]
  cases parseCustomSection sec obj with
  | error e => rfl
  | ok obj' => rfl

theorem parseSections_append (secs secs' : List WasmSection) (obj : WasmObject) :
    parseSections (secs ++ secs') obj
      = match parseSections secs obj with
        | .error e => .error e
        | .ok obj' => parseSections secs' obj' := by
  induction secs generalizing obj with
  | nil => rfl
  | cons sec secs ih =>
    rw [List.cons_append, parseSections_cons, parseSections_cons]
    cases parseCustomSection sec obj with
    | error e => rfl
    | ok obj' => exact ih obj'

/-- The strings that an attribute brings into a module are shorter than `2^32`. -/
def Short (attr : Function → Option (List UInt8)) (M : Module) : Prop :=
  ∀ s ∈ strings attr M, s.length < 2 ^ 32

instance (attr : Function → Option (List UInt8)) (M : Module) : Decidable (Short attr M) :=
  List.decidableBAll _ _

theorem narrow_strings {attr : Function → Option (List UInt8)} {M : Module} (h : Short attr M) :
    ∀ f ∈ (strings attr M).map Frame.of, Narrow f := by
  intro f hf
  obtain ⟨s, hs, rfl⟩ := List.mem_map.1 hf
  exact narrow_of (h s hs)

theorem payload_of (ss : List (List UInt8)) : (ss.map Frame.of).map Frame.payload = ss := by
  rw [List.map_map]
  exact List.map_id ss

variable {behind : Text → Nat → UInt8} {M : Module}

/-- A list section, or none for no strings. -/
theorem parseSections_list {name : Text} {attr : Function → Option (List UInt8)} {what : String}
    {push : List (List UInt8) → WasmObject} {strs : List (List UInt8)}
    (hparse : ∀ sec : WasmSection, sec.name = name →
      parseCustomSection sec obj = parseList what push strs sec)
    (hobj : push strs = obj) (h : Short attr M) :
    parseSections ((emitSection name attr M).map (toSection behind)) obj
      = .ok (push (strs ++ strings attr M)) := by
  rw [emitSection_eq]
  by_cases hnil : strings attr M = []
  · rw [if_pos hnil, hnil, List.append_nil, hobj]
    rfl
  · rw [if_neg hnil, List.map_cons, List.map_nil]
    have hok : parseList what push strs
        (toSection behind (name, sequence ((strings attr M).map Frame.of)))
          = .ok (push (strs ++ strings attr M)) := by
      refine parseList_ok.2 ⟨_, rfl, narrow_strings h, ?_⟩
      rw [payload_of]
    rw [parseSections_cons, hparse _ rfl, hok]
    rfl

theorem parseSections_imports (h : Short Function.importName M) :
    parseSections ((emitSection importsSection Function.importName M).map (toSection behind)) obj
      = .ok { obj with allowedImports := obj.allowedImports ++ strings Function.importName M } := by
  refine @parseSections_list obj behind M _ _ "allowed import" ({ obj with allowedImports := · })
    obj.allowedImports (fun sec hsec => ?_) rfl h
  unfold parseCustomSection
  rw [if_pos hsec]
  rfl

theorem parseSections_actions (h : Short Function.wasmAction M) :
    parseSections ((emitSection actionsSection Function.wasmAction M).map (toSection behind)) obj
      = .ok { obj with actions := obj.actions ++ strings Function.wasmAction M } := by
  have hne : actionsSection ≠ importsSection ∧ actionsSection ≠ abiSection := by decide
  refine @parseSections_list obj behind M _ _ "actions" ({ obj with actions := · })
    obj.actions (fun sec hsec => ?_) rfl h
  unfold parseCustomSection
  rw [hsec, if_neg hne.1, if_neg hne.2, if_pos rfl]
  rfl

theorem parseSections_notify (h : Short Function.wasmNotify M) :
    parseSections ((emitSection notifySection Function.wasmNotify M).map (toSection behind)) obj
      = .ok { obj with notify := obj.notify ++ strings Function.wasmNotify M } := by
  have hne : notifySection ≠ importsSection ∧ notifySection ≠ abiSection ∧
      notifySection ≠ actionsSection := by decide
  refine @parseSections_list obj behind M _ _ "notify" ({ obj with notify := · })
    obj.notify (fun sec hsec => ?_) rfl h
  unfold parseCustomSection
  rw [hsec, if_neg hne.1, if_neg hne.2.1, if_neg hne.2.2, if_pos rfl]
  rfl

/-- **The ABI section**: one string arrives, a second one is an error. -/
theorem parseSections_abi (h : Short Function.wasmAbi M) :
    parseSections ((emitSection abiSection Function.wasmAbi M).map (toSection behind)) obj
      = match strings Function.wasmAbi M with
        | [] => .ok obj
        | [abi] => .ok { obj with eosioAbi := abi }
        | _ :: _ :: _ => .error (.parseFailed "eosio abi section ended prematurely") := by
  have hne : abiSection ≠ importsSection := by decide
  have hparse : ∀ sec : WasmSection, sec.name = abiSection →
      parseCustomSection sec obj = parseEosioABISection sec obj := by
    intro sec hsec
    unfold parseCustomSection
    rw [hsec, if_neg hne, if_pos rfl]
  have hnarrow := narrow_strings h
  rw [emitSection_eq]
  cases habis : strings Function.wasmAbi M with
  | nil =>
    rw [if_pos rfl]
    rfl
  | cons abi abis =>
    rw [habis] at hnarrow
    have hframe : Narrow (Frame.of abi) := hnarrow _ (.head _)
    have hsplit : sequence ((abi :: abis).map Frame.of)
        = (Frame.of abi).bytes ++ sequence (abis.map Frame.of) := sequence_cons _ _
    rw [if_neg (List.cons_ne_nil abi abis), List.map_cons, List.map_nil]
    rw [parseSections_cons, hparse _ rfl, parseEosioABISection_frame hframe hsplit]
    cases abis with
    | nil =>
      rw [List.map_nil, sequence_nil, if_pos rfl]
      rfl
    | cons abi' abis =>
      have hrest : sequence ((abi' :: abis).map Frame.of) ≠ [] := by
        intro hempty
        have hpos := (encodeU_group abi'.length).1.length_pos
        have hlen := congrArg List.length hempty
        rw [List.map_cons, sequence_cons, List.length_append, Frame.length_bytes, List.length_nil] at hlen
        simp only [Frame.of] at hlen
        omega
      rw [if_neg hrest]

/-- The strings of the four attributes. -/
structure ShortStrings (M : Module) : Prop where
  imports : Short Function.importName M
  abi : Short Function.wasmAbi M
  actions : Short Function.wasmAction M
  notify : Short Function.wasmNotify M

/-- The lists arrive in function order, and every ABI string. -/
def Transported (M : Module) (behind : Text → Nat → UInt8) : Prop :=
  ∃ obj, transport M behind = .ok obj ∧ obj.allowedImports = strings Function.importName M ∧
    obj.actions = strings Function.wasmAction M ∧ obj.notify = strings Function.wasmNotify M ∧
    ∀ abi ∈ strings Function.wasmAbi M, obj.eosioAbi = abi

theorem transport_eq (h : ShortStrings M) : transport M behind =
    match strings Function.wasmAbi M with
    | [] => .ok ⟨[], strings Function.importName M, strings Function.wasmAction M,
        strings Function.wasmNotify M⟩
    | [abi] => .ok ⟨abi, strings Function.importName M, strings Function.wasmAction M,
        strings Function.wasmNotify M⟩
    | _ :: _ :: _ => .error (.parseFailed "eosio abi section ended prematurely") := by
  unfold transport emitEndOfAsmFile
  simp only [List.map_append, parseSections_append, parseSections_imports h.imports,
    parseSections_abi h.abi]
  cases strings Function.wasmAbi M with
  | nil => simp only [parseSections_actions h.actions, parseSections_notify h.notify]; rfl
  | cons abi abis =>
    cases abis with
    | nil => simp only [parseSections_actions h.actions, parseSections_notify h.notify]; rfl
    | cons abi' abis => rfl

theorem transported_iff (h : ShortStrings M) :
    Transported M behind ↔ (strings Function.wasmAbi M).length ≤ 1 := by
  unfold Transported
  rw [transport_eq h]
  cases strings Function.wasmAbi M with
  | nil =>
    refine ⟨fun _ => Nat.zero_le _, fun _ => ⟨_, rfl, rfl, rfl, rfl, fun _ habi => nomatch habi⟩⟩
  | cons abi abis =>
    cases abis with
    | nil =>
      refine ⟨fun _ => Nat.le_refl _, fun _ => ⟨_, rfl, rfl, rfl, rfl, ?_⟩⟩
      exact fun _ habi => (List.mem_singleton.1 habi).symm
    | cons abi' abis =>
      constructor
      · intro htransport
        obtain ⟨obj, hok, -⟩ := htransport
        cases hok
      · intro hle
        rw [List.length_cons, List.length_cons] at hle
        omega

/-- **The metadata's transport**: a module's lists and ABI strings arrive if it has one ABI string
at most; a section that is no sequence of strings is refused unless a length from `2^32` on is
narrowed; and nothing behind a section is read. -/
theorem metadata_transport_iff (M : Module) (behind : Text → Nat → UInt8) (sec : WasmSection)
    (past : Nat → UInt8) (obj : WasmObject) :
    (ShortStrings M → (Transported M behind ↔ (strings Function.wasmAbi M).length ≤ 1)) ∧
    (IsMetadata sec → sec.content.length < 2 ^ 32 →
      ((¬ IsSequence sec.content → Rejected sec obj) ↔ ¬ Narrowed sec)) ∧
    parseCustomSection (sec.moved past) obj = parseCustomSection sec obj :=
  ⟨transported_iff, rejected_of_not_sequence_iff, parseCustomSection_moved past⟩

def ascii (s : String) : List UInt8 := s.toList.map fun c => UInt8.ofNat c.toNat

/-- A contract's action, the import it calls and its ABI, in two functions. -/
def payModule : Module :=
  [⟨ascii "apply", false, some (ascii "\x7b\x7d"), some (ascii "pay:pay_stub"), none⟩,
    ⟨ascii "wasm_assert", true, none, none, none⟩]

theorem payModule_short : ShortStrings payModule where
  imports := by decide
  abi := by decide
  actions := by decide
  notify := by decide

/-- A section with one empty string. -/
def emptyString : WasmSection := ⟨actionsSection, [0], fun _ => 0⟩

theorem metadata_transport_payModule :
    ShortStrings payModule ∧ Transported payModule (fun _ _ => 0) ∧
    IsMetadata emptyString ∧ emptyString.content.length < 2 ^ 32 ∧
    ((¬ IsSequence emptyString.content → Rejected emptyString WasmObject.empty) ↔
      ¬ Narrowed emptyString) := by
  have hname : IsMetadata emptyString := .inr (.inr (.inl rfl))
  have hsize : emptyString.content.length < 2 ^ 32 := by decide
  have hiff := metadata_transport_iff payModule (fun _ _ => 0) emptyString (fun _ => 0)
    WasmObject.empty
  exact ⟨payModule_short, (hiff.1 payModule_short).2 (by decide), hname, hsize,
    hiff.2.1 hname hsize⟩

/-- Two functions with an ABI string. -/
def twoAbis : Module :=
  [⟨ascii "f", false, some (ascii "a"), none, none⟩,
    ⟨ascii "g", false, some (ascii "b"), none, none⟩]

theorem twoAbis_short : ShortStrings twoAbis where
  imports := by decide
  abi := by decide
  actions := by decide
  notify := by decide

/-- The length `2^32`, and no string. -/
def longLength : WasmSection := ⟨actionsSection, [0x80, 0x80, 0x80, 0x80, 0x10], fun _ => 0⟩

theorem longLength_narrowed : Narrowed longLength := by
  refine ⟨[⟨longLength.content, []⟩], ⟨?_, ?_, fun h => ?_⟩, _, .head _, by decide⟩
  · rfl
  · rw [List.forall_mem_singleton]
    exact ⟨⟨by simp [longLength, IsGroup], by decide, by decide⟩, by decide⟩
  · rfl

theorem metadata_not_transported :
    (¬ ∀ (M : Module) (behind : Text → Nat → UInt8), ShortStrings M → Transported M behind) ∧
    ¬ ∀ (sec : WasmSection) (obj : WasmObject), IsMetadata sec → sec.content.length < 2 ^ 32 →
      ¬ IsSequence sec.content → Rejected sec obj := by
  constructor
  · intro h
    have htwo := (transported_iff twoAbis_short).1 (h twoAbis (fun _ _ => 0) twoAbis_short)
    exact absurd htwo (by decide)
  · intro h
    have hname : IsMetadata longLength := .inr (.inr (.inl rfl))
    have hsize : longLength.content.length < 2 ^ 32 := by decide
    have hrefused := h longLength WasmObject.empty hname hsize
    exact (rejected_of_not_sequence_iff hname hsize).1 hrefused longLength_narrowed

end Metadata

end Lld
