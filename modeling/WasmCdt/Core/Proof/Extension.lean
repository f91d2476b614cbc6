import WasmCdt.Core.ExtensionFormat
import WasmCdt.Core.Proof.RoundTrip

/-!
# Structures with extensions

An extension is told from none by the bytes that are left in the stream, and is written with or
without a value.

* `StreamTy.implements`: the overloads of all types implement the packed form.
* `Extended.unpack_pack`: a structure comes back with a value in every extension.
* `Extended.unpack_version`: **the bytes of an earlier version of a structure are read as the same
  values, and the extensions that were added have none.**
-/

namespace Wasmlib

variable {α : Type}

theorem Implements.binaryExtension {c : Serial α} {f : Format α} (h : Implements c f) :
    Implements (.binaryExtension c) (.binaryExtension f c.make) where
  write hb hlen _ _ _ s := h.write hb hlen s
  read {t v} hb hfit done rest := by
    cases v with
    | none => exact hfit.elim
    | some x =>
      obtain ⟨hx, hbytes⟩ := hfit
      have hpos : (f.bytes x ++ rest).length ≠ 0 := by
        have := List.length_pos_iff.2 hbytes
        rw [List.length_append]
        omega
      simp only [Serial.binaryExtension, Format.binaryExtension, Option.getD_some] at hb ⊢
      rw [if_pos hpos, h.read hb hx]
      rfl

theorem StreamTy.bytes_of_primitive {t : StreamTy α} {p : Primitive α} (h : t.primitive? = some p) :
    t.format.bytes = p.repr := by
  cases t <;> simp only [StreamTy.primitive?, Option.some.injEq, reduceCtorEq] at h
  all_goals
    subst h
    rfl

mutual

/-- **The overloads of a type implement its packed form.** -/
theorem StreamTy.implements {α : Type} : ∀ t : StreamTy α, Implements t.serial t.format
  | .int n => .int n
  | .bool => .bool
  | .unsignedInt => .unsignedInt
  | .signedInt => .signedInt
  | .string => .string
  | .charVector => .charVector
  | .vector t => .sequence t.implements
  | .list t => .sequence t.implements
  | .deque t => .sequence t.implements
  | .set t cmp => .set t.implements cmp
  | .map k t cmp => .set (.pair k.implements t.implements) cmp.onKey
  | .optional t => .optional t.implements
  | .binaryExtension t => .binaryExtension t.implements
  | .pair a b => .pair a.implements b.implements
  | .tuple ts => ts.implementsElements
  | .array t n => .array t.implements n
  | .cArray t n _ => by
    simp only [StreamTy.serial]
    cases hp : t.primitive? with
    | none => exact .cArrayEach t.implements n
    | some p => exact .cArrayBulk (StreamTy.bytes_of_primitive hp) n
  | .variant t ts => AltImplements.variant t.implements ts.implementsAlternatives
  | .fixedBytes size => .fixedBytes size
  | .struct members init => .struct members.implementsElements init

theorem StreamTypes.implementsElements {ρ σ : Type} : ∀ ts : StreamTypes ρ σ,
    Implements ts.elements ts.productFormat
  | .nil => .nil
  | .cons t ts => .cons t.implements ts.implementsElements

theorem StreamTypes.implementsAlternatives {ρ σ : Type} : ∀ ts : StreamTypes ρ σ,
    AltImplements ts.alternatives ts.sumFormat
  | .nil => .nil
  | .cons t ts => .cons t.implements ts.implementsAlternatives

end

/-! ## Reading extensions -/

/-- An extension with bytes left in the stream. -/
theorem readExtension_eq {c : Serial α} {f : Format α} (h : Implements c f) {v : α}
    (hb : f.Bounded v) (hfit : f.Fits c.make v) (o : Option α) (done : List UInt8)
    {rest : List UInt8} (hrest : f.bytes v ++ rest ≠ []) :
    (Serial.binaryExtension c).read o ⟨done, f.bytes v ++ rest⟩ =
      .ok (some v, ⟨done ++ f.bytes v, rest⟩) := by
  simp only [Serial.binaryExtension]
  rw [if_pos (by rwa [ne_eq, List.length_eq_zero_iff]), h.read hb hfit]
  rfl

namespace Extensions

/-- At the end of the stream the extensions stay as they are. -/
theorem read_nil {ρ σ : Type} : ∀ (es : Extensions ρ σ) (o : ρ) (done : List UInt8),
    es.members.elements.read o ⟨done, []⟩ = .ok (o, ⟨done, []⟩)
  | .nil, _, _ => rfl
  | .cons t es, o, done => by
    simp only [members, StreamTypes.elements, Serial.cons, StreamTy.serial, Serial.binaryExtension,
      List.length_nil, ne_eq, not_true_eq_false, if_false, pure_eq_ok, ok_bind, read_nil es]

/-- The written extensions are read with values in all of them. -/
theorem read_filled {ρ σ : Type} : ∀ {es : Extensions ρ σ} {v : ρ} (o : ρ) (done : List UInt8),
    es.members.productFormat.Bounded v → es.Fits v →
    es.members.elements.read o ⟨done, es.members.productFormat.bytes v⟩ =
      .ok (es.filled v, ⟨done ++ es.members.productFormat.bytes v, []⟩)
  | .nil, _, _, done, _, _ => by
    simp only [members, StreamTypes.elements, StreamTypes.productFormat, Serial.nil, Format.nil, filled,
      List.append_nil, pure_eq_ok]
  | .cons t es, v, o, done, hb, hfit => by
    obtain ⟨hfit, hleft, hrest⟩ := hfit
    simp only [members, StreamTypes.elements, StreamTypes.productFormat, Serial.cons, Format.cons,
      StreamTy.serial, StreamTy.format, Format.binaryExtension, filled] at hb ⊢
    rw [readExtension_eq t.implements hb.1 hfit _ _ hleft]
    simp only [ok_bind, read_filled o.2 _ hb.2 hrest, pure_eq_ok, List.append_assoc]

/-- The values of a version are read as the first extensions. -/
theorem read_version {ρ σ : Type} : ∀ {j : Nat} {es : Extensions ρ σ} {v : (es.version j).ρ} {o : ρ}
    (done : List UInt8), (es.version j).members.productFormat.Bounded v → es.FitsVersion j o v →
    es.members.elements.read o ⟨done, (es.version j).members.productFormat.bytes v⟩ =
      .ok ((es.version j).upgrade v, ⟨done ++ (es.version j).members.productFormat.bytes v, []⟩)
  | 0, es, v, o, done, _, hfit => by
    simp only [FitsVersion] at hfit
    subst hfit
    simp only [version, StreamTypes.productFormat, Format.nil, List.append_nil]
    exact read_nil es _ done
  | _ + 1, .nil, _, _, done, _, _ => by
    simp only [version, members, StreamTypes.elements, StreamTypes.productFormat, Serial.nil, Format.nil,
      List.append_nil, pure_eq_ok]
  | j + 1, .cons t es, v, o, done, hb, hfit => by
    obtain ⟨hfit, hbytes, hrest⟩ := hfit
    simp only [version, members, StreamTypes.elements, StreamTypes.productFormat, Serial.cons,
      Format.cons, StreamTy.serial] at hb ⊢
    rw [readExtension_eq t.implements hb.1 hfit _ _ (by simp [hbytes])]
    simp only [ok_bind, read_version _ hb.2 hrest, pure_eq_ok, List.append_assoc]

theorem filled_eq_iff {ρ σ : Type} : ∀ (es : Extensions ρ σ) (v : ρ), es.filled v = v ↔ es.Present v
  | .nil, _ => by simp [filled, Present]
  | .cons t es, (none, _) => by simp [filled, Present]
  | .cons t es, (some _, v) => by simp [filled, Present, filled_eq_iff es v]

end Extensions

namespace Extended

theorem read_filled {ρ σ : Type} : ∀ {ms : Extended ρ σ} {o v : ρ} (done : List UInt8),
    ms.members.productFormat.Bounded v → ms.Fits o v →
    ms.members.elements.read o ⟨done, ms.members.productFormat.bytes v⟩ =
      .ok (ms.filled v, ⟨done ++ ms.members.productFormat.bytes v, []⟩)
  | .extensions _, o, _, done, hb, hfit => Extensions.read_filled o done hb hfit
  | .field t ms, o, v, done, hb, hfit => by
    simp only [members, StreamTypes.elements, StreamTypes.productFormat, Serial.cons, Format.cons,
      filled] at hb ⊢
    rw [t.implements.read hb.1 hfit.1]
    simp only [ok_bind, read_filled _ hb.2 hfit.2, pure_eq_ok, List.append_assoc]

theorem read_version {ρ σ : Type} : ∀ {j : Nat} {ms : Extended ρ σ} {v : (ms.version j).ρ} {o : ρ}
    (done : List UInt8), (ms.version j).members.productFormat.Bounded v → ms.FitsVersion j o v →
    ms.members.elements.read o ⟨done, (ms.version j).members.productFormat.bytes v⟩ =
      .ok ((ms.version j).upgrade v, ⟨done ++ (ms.version j).members.productFormat.bytes v, []⟩)
  | _, .extensions _, _, _, done, hb, hfit => Extensions.read_version done hb hfit
  | j, .field t ms, v, o, done, hb, hfit => by
    simp only [version, members, StreamTypes.elements, StreamTypes.productFormat, Serial.cons,
      Format.cons] at hb ⊢
    rw [t.implements.read hb.1 hfit.1]
    simp only [ok_bind, read_version _ hb.2 hfit.2, pure_eq_ok, List.append_assoc]

theorem filled_eq_iff {ρ σ : Type} : ∀ (ms : Extended ρ σ) (v : ρ), ms.filled v = v ↔ ms.Present v
  | .extensions es, v => es.filled_eq_iff v
  | .field _ ms, v => by simp [filled, Present, Prod.ext_iff, filled_eq_iff ms v.2]

/-- The structure comes back from its packed bytes with a value in every extension: it is the value
that was packed if that has one in every extension. -/
theorem unpack_pack {ρ σ : Type} (ms : Extended ρ σ) (init v : ρ)
    (hb : ms.members.productFormat.Bounded v) (hfit : ms.Fits init v)
    (hlen : (ms.members.productFormat.bytes v).length < 2 ^ 31) :
    ∃ bytes, (ms.struct init).serial.pack v = .ok bytes ∧
      (ms.struct init).serial.unpack bytes = .ok (ms.filled v) ∧ (ms.filled v = v ↔ ms.Present v) := by
  refine ⟨_, (ms.struct init).implements.pack_eq hb hlen, ?_, ms.filled_eq_iff v⟩
  have hread : (ms.struct init).serial.read init ⟨[], ms.members.productFormat.bytes v⟩ =
      .ok (ms.filled v, ⟨[] ++ ms.members.productFormat.bytes v, []⟩) := read_filled [] hb hfit
  exact congrArg (· >>= fun p => pure p.1) hread

end Extended

/-- A structure of a `uint16_t`, a `binary_extension<uint16_t>` and a `binary_extension<bool>`. -/
def extendedSample : Extended (BitVec (8 * 2) × Option (BitVec (8 * 2)) × Option Bool × Unit)
    (BitVec (8 * 2) ⊕ Option (BitVec (8 * 2)) ⊕ Option Bool ⊕ Empty) :=
  .field (.int 2) (.extensions (.cons (.int 2) (.cons .bool .nil)))

theorem unpack_pack_sample : ∃ bytes,
    (extendedSample.struct (0, none, none, ())).serial.pack (300, some 7, none, ()) = .ok bytes ∧
    (extendedSample.struct (0, none, none, ())).serial.unpack bytes =
      .ok (extendedSample.filled (300, some 7, none, ())) ∧
    (extendedSample.filled (300, some 7, none, ()) = (300, some 7, none, ()) ↔
      extendedSample.Present (300, some 7, none, ())) := by
  refine Extended.unpack_pack extendedSample _ _ ⟨trivial, trivial, trivial, trivial⟩ ?_ (by decide)
  exact ⟨trivial, trivial, by decide, trivial, by decide, trivial⟩

/-- An extension without a value comes back with the default-constructed one. -/
theorem unpack_pack_absent :
    (extendedSample.struct (0, none, none, ())).serial.pack (300, none, none, ()) =
        .ok [44, 1, 0, 0, 0] ∧
      (extendedSample.struct (0, none, none, ())).serial.unpack [44, 1, 0, 0, 0] =
        .ok (300, some 0, some false, ()) :=
  ⟨rfl, rfl⟩

namespace Extended

/-- **Extensions can be added to a structure.** What a version of it with the first `j` extensions
packs is read as the same fields and the same first extensions, with no value in the others. -/
theorem unpack_version {ρ σ : Type} (ms : Extended ρ σ) (init : ρ) (j : Nat)
    (object v : (ms.version j).ρ) (hb : (ms.version j).members.productFormat.Bounded v)
    (hfit : ms.FitsVersion j init v)
    (hlen : ((ms.version j).members.productFormat.bytes v).length < 2 ^ 31) :
    ∃ bytes, (StreamTy.struct (ms.version j).members object).serial.pack v = .ok bytes ∧
      (ms.struct init).serial.unpack bytes = .ok ((ms.version j).upgrade v) := by
  refine ⟨_, (StreamTy.struct (ms.version j).members object).implements.pack_eq hb hlen, ?_⟩
  have hread : (ms.struct init).serial.read init
      ⟨[], (ms.version j).members.productFormat.bytes v⟩ = .ok ((ms.version j).upgrade v,
        ⟨[] ++ (ms.version j).members.productFormat.bytes v, []⟩) := read_version [] hb hfit
  exact congrArg (· >>= fun p => pure p.1) hread

end Extended

theorem unpack_version_sample : ∃ bytes,
    (StreamTy.struct (extendedSample.version 1).members (0, 0, ())).serial.pack (300, 7, ()) =
      .ok bytes ∧
    (extendedSample.struct (0, none, none, ())).serial.unpack bytes =
      .ok ((extendedSample.version 1).upgrade (300, 7, ())) := by
  refine Extended.unpack_version extendedSample (0, none, none, ()) 1 (0, 0, ()) (300, 7, ())
    ⟨trivial, trivial, trivial⟩ ?_ (by decide)
  exact ⟨trivial, trivial, by decide, rfl⟩

/-- A `fixed_bytes<20>` whose padding is not zero comes back changed from the bytes of a version
without the extension. -/
theorem unpack_version_changed :
    (StreamTy.struct (.cons (.fixedBytes 20) .nil) (⟨[0, 0], rfl⟩, ())).serial.pack
        (⟨[1, 1], rfl⟩, ()) = .ok (List.replicate 15 0 ++ [1, 0, 0, 0, 0]) ∧
      ((Extended.field (.fixedBytes 20) (.extensions (.cons .bool .nil))).struct
        (⟨[0, 0], rfl⟩, none, ())).serial.unpack (List.replicate 15 0 ++ [1, 0, 0, 0, 0]) =
        .ok (⟨[1, 0], rfl⟩, none, ()) := by
  constructor
  · decide
  · decide

end Wasmlib
