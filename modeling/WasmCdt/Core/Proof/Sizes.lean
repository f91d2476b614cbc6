import WasmCdt.Core.Extension
import WasmCdt.Core.Serialize
import WasmCdt.Core.Proof.Varint

/-!
# The sizing pass and the writing pass

An overload does to every stream the same writes, so that the two streams advance alike.

* `Pieces`: a computation that is a list of writes, whatever the stream.
* `StreamTy.chunked`, `Ty.chunked`: the overloads of a type are such computations.
* `StreamTy.pack_exact`: **`pack_size` is what the writing pass writes, and `pack` fills its buffer.**
-/

namespace Wasmlib

variable {α β κ σ : Type}

/-! ## Writes -/

/-- The pieces, one after the other. -/
def writeAll {S : Type} [Sink S] : List (List UInt8) → S → Exec S
  | [], s => pure s
  | d :: ds, s => do
    let s ← Sink.write d s
    writeAll ds s

theorem writeAll_append {S : Type} [Sink S] : ∀ (ds es : List (List UInt8)) (s : S),
    writeAll (ds ++ es) s = (writeAll ds s >>= writeAll es)
  | [], _, _ => rfl
  | d :: ds, es, s => by
    rw [List.cons_append, writeAll, writeAll]
    cases Sink.write d s with
    | error e => rfl
    | ok s' => exact writeAll_append ds es s'

/-- Small pieces are one write of all their bytes. -/
theorem writeAll_eq {S : Type} [Sink S] [LawfulSink S] : ∀ {ds : List (List UInt8)} (s : S),
    ds.flatten.length < 2 ^ 31 → writeAll ds s = Sink.write ds.flatten s
  | [], s, _ => (LawfulSink.write_nil s).symm
  | d :: ds, s, h => by
    rw [List.flatten_cons] at h ⊢
    rw [writeAll, ← LawfulSink.write_bind _ _ _ h]
    rw [List.length_append] at h
    cases Sink.write d s with
    | error e => rfl
    | ok s' => exact writeAll_eq s' (by omega)

/-- A computation on any stream that is a list of writes. -/
def Pieces (f : {S : Type} → [Sink S] → S → Exec S) : Prop :=
  ∃ ds : List (List UInt8), ∀ {S : Type} [Sink S] (s : S), f s = writeAll ds s

namespace Pieces

theorem done : Pieces fun s => pure s := ⟨[], fun _ => rfl⟩

theorem write (d : List UInt8) : Pieces (Sink.write d) :=
  ⟨[d], fun s => by simp only [writeAll, pure_eq_ok, bind_ok]⟩

theorem bind {f g : {S : Type} → [Sink S] → S → Exec S} (hf : Pieces f) (hg : Pieces g) :
    Pieces fun s => f s >>= g := by
  obtain ⟨ds, hds⟩ := hf
  obtain ⟨es, hes⟩ := hg
  refine ⟨ds ++ es, fun {S} _ s => ?_⟩
  have hfirst : f s = writeAll ds s := hds s
  have hrest : (g : S → Exec S) = writeAll es := funext fun s => hes s
  change (f s >>= g) = _
  rw [writeAll_append, hfirst, hrest]

theorem ite {p : Prop} [Decidable p] {f g : {S : Type} → [Sink S] → S → Exec S} (hf : Pieces f)
    (hg : Pieces g) : Pieces fun s => if p then f s else g s := by
  by_cases hp : p
  · simpa only [hp, ↓reduceIte] using hf
  · simpa only [hp, ↓reduceIte] using hg

theorem groups : ∀ n val : Nat, Pieces (writeGroups n val)
  | 0, _ => done
  | n + 1, val => by
    have hrest := groups n (val >>> 7)
    exact (write _).bind (hrest.ite done)

theorem unsigned (value : BitVec 32) : Pieces (writeUnsigned value) := groups 10 value.toNat

theorem size (n : Nat) : Pieces (writeSize n) := unsigned _

end Pieces

/-- The writing overload of every value is a list of writes. -/
def Chunked (c : Serial α) : Prop := ∀ v, Pieces (c.write v)

namespace Chunked

variable {c : Serial α}

theorem each (h : Chunked c) : ∀ l : List α, Pieces (writeEach c l)
  | [] => .done
  | x :: l => (h x).bind (h.each l)

theorem int (n : Nat) : Chunked (.int n) := fun _ => .write _

theorem bool : Chunked .bool := fun _ => .write _

theorem unsignedInt : Chunked .unsignedInt := Pieces.unsigned

theorem signedInt : Chunked .signedInt := fun v => .unsigned (zigzag v)

theorem string : Chunked .string := fun v => (Pieces.size v.length).bind (.ite (.write v) .done)

theorem charVector : Chunked .charVector := fun v => (Pieces.size v.length).bind (.write v)

theorem sequence (h : Chunked c) : Chunked (.sequence c) :=
  fun v => (Pieces.size v.length).bind (h.each v)

theorem array (h : Chunked c) (n : Nat) : Chunked (.array c n) := fun v => h.each v.toList

theorem cArrayEach (h : Chunked c) (n : Nat) : Chunked (.cArrayEach c n) :=
  fun v => (Pieces.size n).bind (h.each v.toList)

theorem cArrayBulk (p : Primitive α) (n : Nat) : Chunked (.cArrayBulk p n) :=
  fun _ => (Pieces.size n).bind (.write _)

theorem set (h : Chunked c) (cmp : Comparator α) : Chunked (.set c cmp) :=
  fun s => (Pieces.size s.1.length).bind (h.each s.1)

theorem entry {k : Serial κ} (hk : Chunked k) (h : Chunked c) : Chunked (.entry k c) :=
  fun i => (hk i.1).bind (h i.2)

theorem optional (h : Chunked c) : Chunked (.optional c)
  | none => (int 1 _).bind .done
  | some x => (int 1 _).bind (h x)

theorem binaryExtension (h : Chunked c) : Chunked (.binaryExtension c) := fun be => h (be.getD c.make)

theorem nil : Chunked .nil := fun _ => .done

theorem cons {b : Serial β} (h : Chunked c) (hb : Chunked b) : Chunked (.cons c b) :=
  fun t => (h t.1).bind (hb t.2)

theorem fixedBytes (size : Nat) : Chunked (.fixedBytes size) := fun _ => .write _

/-- The alternatives of a variant. -/
theorem variant {others : Alternatives σ} (h : Chunked c) (ho : ∀ v, Pieces (others.write v)) :
    Chunked (.variant c others) := by
  intro v
  refine (Pieces.size _).bind ?_
  cases v with
  | inl x => exact h x
  | inr v => exact ho v

end Chunked

mutual

theorem StreamTy.chunked {α : Type} : ∀ t : StreamTy α, Chunked t.serial
  | .int n => .int n
  | .bool => .bool
  | .unsignedInt => .unsignedInt
  | .signedInt => .signedInt
  | .string => .string
  | .charVector => .charVector
  | .vector t => .sequence t.chunked
  | .list t => .sequence t.chunked
  | .deque t => .sequence t.chunked
  | .set t cmp => .set t.chunked cmp
  | .map k t cmp => .set (.entry k.chunked t.chunked) cmp.onKey
  | .optional t => .optional t.chunked
  | .binaryExtension t => .binaryExtension t.chunked
  | .pair a b => .entry a.chunked b.chunked
  | .tuple ts => ts.chunked_elements
  | .array t n => .array t.chunked n
  | .cArray t n _ => by
    rw [StreamTy.serial]
    cases t.primitive? with
    | some p => exact .cArrayBulk p n
    | none => exact .cArrayEach t.chunked n
  | .variant t ts => .variant t.chunked ts.chunked_alternatives
  | .fixedBytes size => .fixedBytes size
  | .struct members _ => members.chunked_elements

theorem StreamTypes.chunked_elements {ρ σ : Type} : ∀ ts : StreamTypes ρ σ, Chunked ts.elements
  | .nil => .nil
  | .cons t ts => .cons t.chunked ts.chunked_elements

theorem StreamTypes.chunked_alternatives {ρ σ : Type} : ∀ (ts : StreamTypes ρ σ) (v : σ),
    Pieces (ts.alternatives.write v)
  | .cons t _, .inl x => t.chunked x
  | .cons _ ts, .inr v => ts.chunked_alternatives v

end

mutual

theorem Ty.chunked {α : Type} : ∀ t : Ty α, Chunked t.serial
  | .int n => .int n
  | .bool => .bool
  | .unsignedInt => .unsignedInt
  | .signedInt => .signedInt
  | .string => .string
  | .charVector => .charVector
  | .vector t => .sequence t.chunked
  | .list t => .sequence t.chunked
  | .deque t => .sequence t.chunked
  | .set t cmp => .set t.chunked cmp
  | .map k t cmp => .set (.entry k.chunked t.chunked) cmp.onKey
  | .optional t => .optional t.chunked
  | .pair a b => .entry a.chunked b.chunked
  | .tuple ts => ts.chunked_elements
  | .array t n => .array t.chunked n
  | .cArray t n => by
    rw [Ty.serial]
    cases t.primitive? with
    | some p => exact .cArrayBulk p n
    | none => exact .cArrayEach t.chunked n
  | .variant t ts => .variant t.chunked ts.chunked_alternatives
  | .fixedBytes size => .fixedBytes size
  | .struct members _ => members.chunked_elements

theorem Types.chunked_elements {ρ σ : Type} : ∀ ts : Types ρ σ, Chunked ts.elements
  | .nil => .nil
  | .cons t ts => .cons t.chunked ts.chunked_elements

theorem Types.chunked_alternatives {ρ σ : Type} : ∀ (ts : Types ρ σ) (v : σ),
    Pieces (ts.alternatives.write v)
  | .cons t _, .inl x => t.chunked x
  | .cons _ ts, .inr v => ts.chunked_alternatives v

end

/-! ## The two passes -/

/-- A stream that keeps everything that is written to it. -/
structure Recorder where
  bytes : List UInt8

instance : Sink Recorder where
  write d ds := .ok ⟨ds.bytes ++ d⟩

instance : LawfulSink Recorder where
  write_nil s := by simp [Sink.write]
  write_bind a b s _ := by simp [Sink.write]

namespace Serial

/-- All the bytes that are written for a value. -/
def encoding (c : Serial α) (v : α) : List UInt8 :=
  match c.write v (Recorder.mk []) with
  | .ok ds => ds.bytes
  | .error _ => []

end Serial

theorem writeAll_recorder : ∀ (ds : List (List UInt8)) (bytes : List UInt8),
    writeAll ds (Recorder.mk bytes) = .ok ⟨bytes ++ ds.flatten⟩
  | [], bytes => by simp [writeAll]
  | d :: ds, bytes => by
    have hwrite : Sink.write d (Recorder.mk bytes) = .ok ⟨bytes ++ d⟩ := rfl
    rw [writeAll, hwrite, ok_bind, writeAll_recorder ds, List.flatten_cons, List.append_assoc]

namespace Chunked

variable {c : Serial α}

theorem encoding_eq {ds : List (List UInt8)} {v : α}
    (h : ∀ {S : Type} [Sink S] (s : S), c.write v s = writeAll ds s) : c.encoding v = ds.flatten := by
  rw [Serial.encoding, h, writeAll_recorder]
  rfl

/-- A short encoding is written as a whole. -/
theorem write_eq (h : Chunked c) {v : α} (hlen : (c.encoding v).length < 2 ^ 31) {S : Type} [Sink S]
    [LawfulSink S] (s : S) : c.write v s = Sink.write (c.encoding v) s := by
  obtain ⟨ds, hds⟩ := h v
  have heq : c.encoding v = ds.flatten := encoding_eq hds
  rw [heq] at hlen ⊢
  exact (hds s).trans (writeAll_eq s hlen)

/-- The sizing pass, the writing pass into any buffer with room, and `pack`. -/
theorem passes_agree (h : Chunked c) {v : α} (hlen : (c.encoding v).length < 2 ^ 31) :
    c.packSize v = .ok (UInt32.ofNat (c.encoding v).length) ∧
    (∀ buffer : List UInt8, (c.encoding v).length ≤ buffer.length →
      c.write v (Datastream.start buffer) =
        .ok ⟨c.encoding v, buffer.drop (c.encoding v).length⟩) ∧
    c.pack v = .ok (c.encoding v) := by
  have hsize : c.packSize v = .ok (UInt32.ofNat (c.encoding v).length) := by
    rw [Serial.packSize, h.write_eq hlen]
    simp [Sink.write]
  have hwrite : ∀ buffer : List UInt8, (c.encoding v).length ≤ buffer.length →
      c.write v (Datastream.start buffer) =
        .ok ⟨c.encoding v, buffer.drop (c.encoding v).length⟩ := by
    intro buffer hroom
    rw [h.write_eq hlen, Datastream.write_eq hlen]
    simp only [Datastream.start, hroom, ↓reduceIte, List.nil_append]
  have htoNat : (UInt32.ofNat (c.encoding v).length).toNat = (c.encoding v).length := by
    rw [UInt32.toNat_ofNat']
    omega
  refine ⟨hsize, hwrite, ?_⟩
  have hfull := hwrite (List.replicate (c.encoding v).length 0) (by rw [List.length_replicate])
  simp only [Serial.pack, hsize, ok_bind, htoNat, hfull, pure_eq_ok, List.drop_replicate,
    Nat.sub_self, List.replicate_zero, List.append_nil]

end Chunked

/-- **The two passes agree**: what `pack_size` counts is what is written, in any buffer with room for
it, and `pack` ends with its buffer written from end to end. -/
theorem StreamTy.pack_exact (t : StreamTy α) (v : α) (h : (t.serial.encoding v).length < 2 ^ 31) :
    t.serial.packSize v = .ok (UInt32.ofNat (t.serial.encoding v).length) ∧
    (∀ buffer : List UInt8, (t.serial.encoding v).length ≤ buffer.length →
      t.serial.write v (Datastream.start buffer) =
        .ok ⟨t.serial.encoding v, buffer.drop (t.serial.encoding v).length⟩) ∧
    t.serial.pack v = .ok (t.serial.encoding v) := t.chunked.passes_agree h

/-- A vector of structures with a number, an optional and an extension that is absent. -/
def sampleExtended : StreamTy (List (BitVec (8 * 2) × Option Bool × Option (BitVec 32) × Unit)) :=
  .vector (.struct (.cons (.int 2) (.cons (.optional .bool) (.cons (.binaryExtension .unsignedInt)
    .nil))) (0, none, none, ()))

theorem pack_exact_sample : sampleExtended.serial.packSize [(300, some true, none, ()), (1, none, some 200, ())] =
      .ok (UInt32.ofNat (sampleExtended.serial.encoding
        [(300, some true, none, ()), (1, none, some 200, ())]).length) ∧
    (∀ buffer : List UInt8, (sampleExtended.serial.encoding
        [(300, some true, none, ()), (1, none, some 200, ())]).length ≤ buffer.length →
      sampleExtended.serial.write [(300, some true, none, ()), (1, none, some 200, ())]
          (Datastream.start buffer) =
        .ok ⟨sampleExtended.serial.encoding [(300, some true, none, ()), (1, none, some 200, ())],
          buffer.drop (sampleExtended.serial.encoding
            [(300, some true, none, ()), (1, none, some 200, ())]).length⟩) ∧
    sampleExtended.serial.pack [(300, some true, none, ()), (1, none, some 200, ())] =
      .ok (sampleExtended.serial.encoding [(300, some true, none, ()), (1, none, some 200, ())]) :=
  StreamTy.pack_exact sampleExtended _ (by decide)

/-! ## What `pack` returns -/

theorem writeAll_sizeStream : ∀ (ds : List (List UInt8)) (n : UInt32),
    writeAll ds (SizeStream.mk n) = .ok ⟨n + UInt32.ofNat ds.flatten.length⟩
  | [], n => by simp [writeAll]
  | d :: ds, n => by
    have hwrite : Sink.write d (SizeStream.mk n) = .ok ⟨n + UInt32.ofNat d.length⟩ := rfl
    rw [writeAll, hwrite, ok_bind, writeAll_sizeStream ds, List.flatten_cons, List.length_append,
      UInt32.ofNat_add, UInt32.add_assoc]

/-- A write that succeeds had room for all of its bytes. -/
theorem Datastream.room_of_write {d : List UInt8} {ds ds' : Datastream}
    (h : Sink.write d ds = .ok ds') :
    d.length ≤ ds.rest.length ∧ ds' = ⟨ds.done ++ d, ds.rest.drop d.length⟩ := by
  obtain ⟨u, -, h⟩ := bind_eq_ok h
  split_ifs at h with hroom
  exact ⟨hroom, (Except.ok.inj h).symm⟩

theorem Datastream.room_of_writeAll (ds : List (List UInt8)) : ∀ {s s' : Datastream},
    writeAll ds s = .ok s' → ds.flatten.length ≤ s.rest.length ∧
      s' = ⟨s.done ++ ds.flatten, s.rest.drop ds.flatten.length⟩ := by
  induction ds with
  | nil =>
    intro s s' h
    obtain rfl : s = s' := Except.ok.inj h
    simp
  | cons d ds ih =>
    intro s s' h
    obtain ⟨s₁, hwrite, h⟩ := bind_eq_ok h
    obtain ⟨hroom, rfl⟩ := room_of_write hwrite
    obtain ⟨hrest, rfl⟩ := ih h
    rw [List.length_drop] at hrest
    rw [List.flatten_cons, List.length_append]
    refine ⟨by omega, ?_⟩
    rw [List.append_assoc, List.drop_drop]

namespace Chunked

variable {c : Serial α}

theorem pieces (h : Chunked c) (v : α) : ∃ ds : List (List UInt8),
    ∀ {S : Type} [Sink S] (s : S), c.write v s = writeAll ds s := h v

/-- A packed value is its encoding, of any length: a count that wrapped leaves no room to write. -/
theorem pack_sound (h : Chunked c) {v : α} {bytes : List UInt8} (hpack : c.pack v = .ok bytes) :
    bytes = c.encoding v := by
  obtain ⟨ds, hds⟩ := h.pieces v
  rw [encoding_eq hds]
  have hsize : c.packSize v = .ok (UInt32.ofNat ds.flatten.length) := by
    rw [Serial.packSize, hds, writeAll_sizeStream]
    simp
  rw [Serial.pack, hsize, ok_bind, hds] at hpack
  obtain ⟨s, hwrite, hpack⟩ := bind_eq_ok hpack
  obtain ⟨hroom, rfl⟩ := Datastream.room_of_writeAll ds hwrite
  simp only [Datastream.start, List.length_replicate, UInt32.toNat_ofNat'] at hroom hpack
  have hfull : ds.flatten.length % 2 ^ 32 = ds.flatten.length := le_antisymm (Nat.mod_le _ _) hroom
  rw [hfull] at hpack
  simpa using (Except.ok.inj hpack).symm

theorem encoding_cons {b : Serial β} (h : Chunked c) (hb : Chunked b) (v : α) (w : β) :
    (Serial.cons c b).encoding (v, w) = c.encoding v ++ b.encoding w := by
  obtain ⟨ds, hds⟩ := h.pieces v
  obtain ⟨es, hes⟩ := hb.pieces w
  have hwrite : ∀ {S : Type} [Sink S] (s : S),
      (Serial.cons c b).write (v, w) s = writeAll (ds ++ es) s := by
    intro S _ s
    have hrest : (fun s : S => b.write w s) = writeAll es := funext fun s => hes s
    change (c.write v s >>= fun s => b.write w s) = _
    rw [hrest, hds, writeAll_append]
  rw [encoding_eq hwrite, encoding_eq hds, encoding_eq hes, List.flatten_append]

end Chunked

end Wasmlib
