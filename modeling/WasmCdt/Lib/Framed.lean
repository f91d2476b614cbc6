import WasmCdt.Lib.Leb128

/-!
# Strings behind their lengths

A frame is a string of bytes behind a LEB128 group. The group of an exact frame holds the length of
the string, and is the encoder's or a longer one.

* `append_inj`: the frame at the front of bytes, once its length is settled.
* `sizes_lt`: fewer bytes than a modulus, framed exactly and once more with the lengths up to the
  modulus, have no group that reaches it.
-/

namespace Framed

open Leb128

structure Frame where
  size : List UInt8
  payload : List UInt8
  deriving DecidableEq, Repr

namespace Frame

def bytes (f : Frame) : List UInt8 := f.size ++ f.payload

/-- The group holds the length. -/
structure Exact (f : Frame) : Prop where
  group : IsGroup f.size
  denotes : value f.size = f.payload.length

/-- The frame with the encoder's group. -/
def of (s : List UInt8) : Frame := ⟨encodeU s.length, s⟩

theorem exact_of (s : List UInt8) : (of s).Exact :=
  ⟨(encodeU_group s.length).1, (encodeU_group s.length).2⟩

theorem length_bytes (f : Frame) : f.bytes.length = f.size.length + f.payload.length :=
  List.length_append

end Frame

/-- The bytes of frames in order. -/
def sequence (fs : List Frame) : List UInt8 := fs.flatMap Frame.bytes

@[simp] theorem sequence_nil : sequence [] = [] := rfl

@[simp] theorem sequence_cons (f : Frame) (fs : List Frame) :
    sequence (f :: fs) = f.bytes ++ sequence fs := List.flatMap_cons

/-- Bytes that are a sequence of strings, each behind its length. -/
def IsSequence (bytes : List UInt8) : Prop :=
  ∃ fs : List Frame, bytes = sequence fs ∧ ∀ f ∈ fs, f.Exact

/-- The frame at the front of bytes is one of a kind, if its group settles the length. -/
theorem append_inj {f g : Frame} {rest rest' : List UInt8} (hf : IsGroup f.size)
    (hg : IsGroup g.size) (hlen : f.size = g.size → f.payload.length = g.payload.length)
    (h : f.bytes ++ rest = g.bytes ++ rest') : f = g ∧ rest = rest' := by
  unfold Frame.bytes at h
  rw [List.append_assoc, List.append_assoc] at h
  obtain ⟨hsize, htail⟩ := hf.append_inj hg h
  obtain ⟨hpayload, hrest⟩ := List.append_inj htail (hlen hsize)
  refine ⟨?_, hrest⟩
  cases f
  cases g
  simp only at hsize hpayload
  rw [hsize, hpayload]

/-- **Frames of exactly framed bytes**, with the lengths up to a modulus only: where the bytes are
fewer than the modulus, no group reaches it. -/
theorem sizes_lt {m : Nat} {fs gs : List Frame} (hfs : ∀ f ∈ fs, IsGroup f.size ∧
      f.payload.length = value f.size % m) (hgs : ∀ g ∈ gs, g.Exact)
    (hbytes : sequence fs = sequence gs) (hlen : (sequence fs).length < m) :
    ∀ f ∈ fs, value f.size < m := by
  induction fs generalizing gs with
  | nil => exact fun f hf => nomatch hf
  | cons f fs ih =>
    obtain ⟨hgroup, hmod⟩ := hfs f (.head _)
    have hpos := hgroup.length_pos
    rw [sequence_cons, List.length_append, Frame.length_bytes] at hlen
    cases gs with
    | nil =>
      have hnil := congrArg List.length hbytes
      rw [sequence_cons, sequence_nil, List.length_append, Frame.length_bytes, List.length_nil] at hnil
      omega
    | cons g gs =>
      obtain ⟨hgroup', hdenotes⟩ := hgs g (.head _)
      rw [sequence_cons, sequence_cons] at hbytes
      have htotal := congrArg List.length hbytes
      simp only [List.length_append, Frame.length_bytes] at htotal
      have hsmall : value g.size < m := by omega
      have hsame : f.size = g.size → f.payload.length = g.payload.length := by
        intro heq
        rw [hmod, heq, Nat.mod_eq_of_lt hsmall, hdenotes]
      obtain ⟨rfl, hrest⟩ := append_inj hgroup hgroup' hsame hbytes
      intro x hx
      rcases List.mem_cons.1 hx with rfl | hx
      · exact hsmall
      · exact ih (fun f hf => hfs f (.tail _ hf)) (fun g hg => hgs g (.tail _ hg)) hrest (by omega) x hx

end Framed
