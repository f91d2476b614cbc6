import WasmCdt.Core.Extension
import WasmCdt.Core.Format
import WasmCdt.Core.Proof.Varint

/-!
# Round trip

The overloads of every type write its packed form and read it back, by induction on the type.

* `Implements`: an overload pair writes a format's bytes, in whatever pieces, and reads them back
  over any object the value fits.
* `Ty.implements`: the overloads of a type implement its packed form.
* `Ty.extract_pack`: **extracting from a packed value and any bytes behind it gives the value and
  leaves the stream at those bytes.**
-/

namespace Wasmlib

variable {α β κ σ : Type}

/-- The overloads `c` implement the format `f`. -/
structure Implements (c : Serial α) (f : Format α) : Prop where
  /-- The pieces written are the bytes of the format. -/
  write : ∀ {v : α}, f.Bounded v → (f.bytes v).length < 2 ^ 31 →
    ∀ {S : Type} [Sink S] [LawfulSink S] (s : S), c.write v s = Sink.write (f.bytes v) s
  /-- The bytes read back over an object that the value fits. -/
  read : ∀ {t v : α}, f.Bounded v → f.Fits t v → ∀ (done rest : List UInt8),
    c.read t ⟨done, f.bytes v ++ rest⟩ = .ok (v, ⟨done ++ f.bytes v, rest⟩)

/-! ## Sizes -/

theorem writeSize_eq {S : Type} [Sink S] [LawfulSink S] {n : Nat} (h : n < 2 ^ 32) (s : S) :
    writeSize n s = Sink.write (Format.sizePrefix n) s := by
  rw [writeSize, writeUnsigned_eq, BitVec.toNat_ofNat, Nat.mod_eq_of_lt h, Format.sizePrefix]

theorem readSize_eq {n : Nat} (h : n < 2 ^ 32) (done rest : List UInt8) :
    readUnsigned ⟨done, Format.sizePrefix n ++ rest⟩ =
      .ok (BitVec.ofNat 32 n, ⟨done ++ Format.sizePrefix n, rest⟩) :=
  readUnsigned_encode h done rest

theorem toNat_size {n : Nat} (h : n < 2 ^ 32) : (BitVec.ofNat 32 n).toNat = n := by
  rw [BitVec.toNat_ofNat, Nat.mod_eq_of_lt h]

/-! ## Integers -/

theorem littleEndian_length : ∀ (n x : Nat), (littleEndian n x).length = n
  | 0, _ => rfl
  | n + 1, x => by rw [littleEndian, List.length_cons, littleEndian_length n]

theorem ofLittleEndian_littleEndian : ∀ (n x : Nat), x < 2 ^ (8 * n) →
    ofLittleEndian (littleEndian n x) = x
  | 0, x, h => by
    simp only [Nat.mul_zero, Nat.pow_zero, Nat.lt_one_iff] at h
    simp [littleEndian, ofLittleEndian, h]
  | n + 1, x, h => by
    have hx : x / 256 < 2 ^ (8 * n) := by
      rw [Nat.div_lt_iff_lt_mul (by decide)]
      calc x < 2 ^ (8 * (n + 1)) := h
        _ = 2 ^ (8 * n) * 256 := by rw [Nat.mul_add, Nat.pow_add]
    rw [littleEndian, ofLittleEndian, ofLittleEndian_littleEndian n _ hx, UInt8.toNat_ofNat']
    omega

theorem ofNat_littleEndian {n : Nat} (x : BitVec (8 * n)) :
    BitVec.ofNat (8 * n) (ofLittleEndian (littleEndian n x.toNat)) = x := by
  rw [ofLittleEndian_littleEndian n _ x.isLt, BitVec.ofNat_toNat, BitVec.setWidth_eq]

theorem Serial.int_read {n : Nat} (t v : BitVec (8 * n)) (done rest : List UInt8) :
    (Serial.int n).read t ⟨done, littleEndian n v.toNat ++ rest⟩ =
      .ok (v, ⟨done ++ littleEndian n v.toNat, rest⟩) := by
  simp only [Serial.int, Datastream.read_append (littleEndian_length n _), ok_bind, pure_eq_ok,
    ofNat_littleEndian]

namespace Implements

theorem int (n : Nat) : Implements (.int n) (.int n) where
  write _ _ _ _ _ _ := rfl
  read _ _ done rest := Serial.int_read _ _ done rest

theorem bool : Implements .bool .bool where
  write {v} _ _ S _ _ s := by cases v <;> rfl
  read {t v} _ _ done rest := by cases v <;> rfl

theorem unsignedInt : Implements .unsignedInt .unsignedInt where
  write _ _ _ _ _ s := writeUnsigned_eq _ s
  read {t v} _ _ done rest := by
    have h := readUnsigned_encode v.isLt done rest
    rwa [BitVec.ofNat_toNat, BitVec.setWidth_eq] at h

theorem signedInt : Implements .signedInt .signedInt where
  write _ _ _ _ _ s := writeUnsigned_eq _ s
  read {t v} _ _ done rest := by
    have h := readUnsigned_encode (zigzag v).isLt done rest
    rw [BitVec.ofNat_toNat, BitVec.setWidth_eq] at h
    simp only [Serial.signedInt, Format.signedInt, h, ok_bind, pure_eq_ok, unzigzag_zigzag]

/-! ## Blocks of bytes -/

theorem read_block {v : List UInt8} (hv : v.length < 2 ^ 32) (done rest : List UInt8) :
    (do
      let (s, ds) ← readUnsigned ⟨done, Format.block.bytes v ++ rest⟩
      ds.read s.toNat) = .ok (v, ⟨done ++ Format.block.bytes v, rest⟩) := by
  simp only [Format.block, List.append_assoc, readSize_eq hv, ok_bind, toNat_size hv,
    Datastream.read_append rfl]

theorem string : Implements .string .block where
  write {v} hv hlen S _ _ s := by
    simp only [Serial.string, writeSize_eq hv]
    by_cases h0 : v.length = 0
    · have hnil : v = [] := List.length_eq_zero_iff.1 h0
      subst hnil
      simp only [List.length_nil, ne_eq, not_true_eq_false, ↓reduceIte, Format.block,
        List.append_nil]
      cases Sink.write (Format.sizePrefix 0) s <;> rfl
    · simp only [h0, ne_eq, not_false_eq_true, ↓reduceIte]
      exact LawfulSink.write_bind _ _ s hlen
  read hv _ done rest := read_block hv done rest

theorem charVector : Implements .charVector .block where
  write {v} hv hlen S _ _ s := by
    simp only [Serial.charVector, writeSize_eq hv]
    exact LawfulSink.write_bind _ _ s hlen
  read hv _ done rest := read_block hv done rest

/-! ## Element by element -/

theorem writeEach_eq {c : Serial α} {f : Format α} (h : Implements c f) {S : Type} [Sink S]
    [LawfulSink S] : ∀ {l : List α} (s : S), (∀ x ∈ l, f.Bounded x) →
    (l.flatMap f.bytes).length < 2 ^ 31 → writeEach c l s = Sink.write (l.flatMap f.bytes) s
  | [], s, _, _ => (LawfulSink.write_nil s).symm
  | x :: xs, s, hb, hlen => by
    simp only [List.flatMap_cons] at hlen ⊢
    have hlen' := hlen
    simp only [List.length_append] at hlen'
    have hxs : ∀ s : S, writeEach c xs s = Sink.write (xs.flatMap f.bytes) s := fun s =>
      writeEach_eq h s (fun y hy => hb y (List.mem_cons_of_mem _ hy)) (by omega)
    simp only [writeEach, h.write (hb x List.mem_cons_self) (by omega), hxs]
    exact LawfulSink.write_bind _ _ s hlen

theorem readEach_eq {c : Serial α} {f : Format α} (h : Implements c f) :
    ∀ {n : Nat} {t v : List.Vector α n} (done rest : List UInt8), (∀ x ∈ v.toList, f.Bounded x) →
    List.Forall₂ f.Fits t.toList v.toList →
    readEach c t ⟨done, v.toList.flatMap f.bytes ++ rest⟩ =
      .ok (v, ⟨done ++ v.toList.flatMap f.bytes, rest⟩)
  | 0, ⟨[], _⟩, ⟨[], _⟩, done, rest, _, _ => by
    simp only [readEach, pure_eq_ok]
    simp [List.Vector.toList]
  | n + 1, ⟨t :: ts, ht⟩, ⟨x :: xs, hx⟩, done, rest, hb, hfit => by
    obtain ⟨hfx, hfxs⟩ := List.forall₂_cons.1 hfit
    have hxs := readEach_eq h (n := n) (t := ⟨ts, Nat.succ.inj ht⟩) (v := ⟨xs, Nat.succ.inj hx⟩)
      (done ++ f.bytes x) rest (fun y hy => hb y (List.mem_cons_of_mem _ hy)) hfxs
    simp only [List.Vector.toList] at hxs
    simp only [List.Vector.toList, List.flatMap_cons, List.append_assoc, readEach,
      h.read (hb x List.mem_cons_self) hfx, ok_bind, hxs, pure_eq_ok]
    rfl

theorem readResized_eq {c : Serial α} {f : Format α} (h : Implements c f) {n : Nat} {t v : List α}
    (hn : n = v.length) (done rest : List UInt8) (hb : ∀ x ∈ v, f.Bounded x)
    (hfit : List.Forall₂ f.Fits (resize c.make v.length t).toList v) :
    (do
      let (v, ds) ← readEach c (resize c.make n t) ⟨done, v.flatMap f.bytes ++ rest⟩
      pure (v.toList, ds)) = .ok (v, ⟨done ++ v.flatMap f.bytes, rest⟩) := by
  subst hn
  have hxs := readEach_eq h (t := resize c.make v.length t) (v := ⟨v, rfl⟩) done rest hb hfit
  simp only [List.Vector.toList] at hxs
  simp only [hxs, ok_bind, pure_eq_ok]
  rfl

theorem sequence {c : Serial α} {f : Format α} (h : Implements c f) :
    Implements (.sequence c) (.sequence f c.make) where
  write {v} hb hlen S _ _ s := by
    have hlen' := hlen
    simp only [Format.sequence, List.length_append] at hlen'
    have hxs : ∀ s : S, writeEach c v s = Sink.write (v.flatMap f.bytes) s :=
      fun s => writeEach_eq h s hb.2 (by omega)
    simp only [Serial.sequence, writeSize_eq hb.1, hxs]
    exact LawfulSink.write_bind _ _ s hlen
  read {t v} hb hfit done rest := by
    simp only [Serial.sequence, Format.sequence, List.append_assoc, readSize_eq hb.1, ok_bind]
    rw [readResized_eq h (toNat_size hb.1) _ rest hb.2 hfit, List.append_assoc]

theorem array {c : Serial α} {f : Format α} (h : Implements c f) (n : Nat) :
    Implements (.array c n) (.array f n) where
  write hb hlen _ _ _ s := writeEach_eq h s hb hlen
  read hb hfit done rest := readEach_eq h done rest hb hfit

theorem check_size {n : Nat} (h : n < 2 ^ 32) :
    (n == (BitVec.ofNat 32 n).toNat) = true := by
  rw [toNat_size h, beq_self_eq_true]

theorem cArrayEach {c : Serial α} {f : Format α} (h : Implements c f) (n : Nat) :
    Implements (.cArrayEach c n) (.cArray f n) where
  write {v} hb hlen S _ _ s := by
    have hlen' := hlen
    simp only [Format.cArray, List.length_append] at hlen'
    have hxs : ∀ s : S, writeEach c v.toList s = Sink.write (v.toList.flatMap f.bytes) s :=
      fun s => writeEach_eq h s hb.2 (by omega)
    simp only [Serial.cArrayEach, writeSize_eq hb.1, hxs]
    exact LawfulSink.write_bind _ _ s hlen
  read {t v} hb hfit done rest := by
    simp only [Serial.cArrayEach, Format.cArray, List.append_assoc, readSize_eq hb.1, ok_bind,
      check_bind, check_size hb.1, ↓reduceIte, readEach_eq h _ rest hb.2 hfit]

/-! ## Arrays of a primitive type -/

theorem repr_length (p : Primitive α) (x : α) : (p.repr x).length = p.size := by
  cases p with
  | int n => exact littleEndian_length n _
  | bool => rfl

theorem ofRepr_repr (p : Primitive α) (x : α) : p.ofRepr (p.repr x) = .ok x := by
  cases p with
  | int n => simp only [Primitive.ofRepr, Primitive.repr, ofNat_littleEndian]
  | bool => cases x <;> rfl

theorem ofReprArray_reprArray (p : Primitive α) : ∀ {n : Nat} (v : List.Vector α n),
    p.ofReprArray n (p.reprArray v.toList) = .ok v
  | 0, ⟨[], _⟩ => rfl
  | n + 1, ⟨x :: xs, h⟩ => by
    have hxs := ofReprArray_reprArray p (n := n) ⟨xs, Nat.succ.inj h⟩
    simp only [Primitive.reprArray, List.Vector.toList] at hxs
    simp only [Primitive.reprArray, List.Vector.toList, List.flatMap_cons, Primitive.ofReprArray,
      List.take_left' (repr_length p x), List.drop_left' (repr_length p x), ofRepr_repr, ok_bind,
      hxs, pure_eq_ok]
    rfl

theorem reprArray_length (p : Primitive α) : ∀ (l : List α),
    (p.reprArray l).length = l.length * p.size
  | [] => by simp [Primitive.reprArray]
  | x :: xs => by
    have hxs := reprArray_length p xs
    simp only [Primitive.reprArray] at hxs
    simp only [Primitive.reprArray, List.flatMap_cons, List.length_append, repr_length, hxs,
      List.length_cons]
    ring

/-- The overloads of a primitive type write an object's memory. -/
theorem cArrayBulk {f : Format α} {p : Primitive α} (hp : f.bytes = p.repr) (n : Nat) :
    Implements (.cArrayBulk p n) (.cArray f n) where
  write {v} hb hlen S _ _ s := by
    simp only [Format.cArray, hp] at hlen ⊢
    simp only [Serial.cArrayBulk, writeSize_eq hb.1]
    exact LawfulSink.write_bind _ _ s hlen
  read {t v} hb hfit done rest := by
    have hlen : (p.reprArray v.toList).length = n * p.size := by
      rw [reprArray_length, List.Vector.toList_length]
    have hmem : v.toList.flatMap f.bytes = p.reprArray v.toList := by rw [hp]; rfl
    simp only [Serial.cArrayBulk, Format.cArray, List.append_assoc, readSize_eq hb.1, ok_bind,
      check_bind, check_size hb.1, ↓reduceIte, hmem, Datastream.read_append hlen,
      ofReprArray_reprArray, pure_eq_ok]

/-! ## Sets and maps -/

/-- Inserting past the last element appends. -/
theorem insertSorted_append {cmp : Comparator α} (x : α) : ∀ {l : List α},
    (∀ y ∈ l, cmp.less y x) → OrderedSet.insertSorted cmp x l = l ++ [x]
  | [], _ => rfl
  | y :: ys, h => by
    have hyx : cmp.less y x := h y List.mem_cons_self
    have hxy : ¬cmp.less x y := by
      intro hxy
      have hyy := cmp.trans hyx hxy
      simp [cmp.irrefl] at hyy
    simp [OrderedSet.insertSorted, hxy, hyx,
      insertSorted_append x fun z hz => h z (List.mem_cons_of_mem _ hz)]

/-- Elements that come in order, greater than what is there, are appended one by one. -/
theorem readEmplace_eq {c : Serial α} {f : Format α} (h : Implements c f) {cmp : Comparator α} :
    ∀ {l : List α} (s : OrderedSet cmp) (hl : (s.1 ++ l).Pairwise fun a b => cmp.less a b)
      (done rest : List UInt8), (∀ x ∈ l, f.Bounded x) → (∀ x ∈ l, f.Fits c.make x) →
    readEmplace c l.length s ⟨done, l.flatMap f.bytes ++ rest⟩ =
      .ok (⟨s.1 ++ l, hl⟩, ⟨done ++ l.flatMap f.bytes, rest⟩)
  | [], ⟨s, _⟩, hl, done, rest, _, _ => by
    simp only [List.length_nil, readEmplace, List.flatMap_nil, List.nil_append, pure_eq_ok,
      List.append_nil]
  | x :: xs, s, hl, done, rest, hb, hfit => by
    have hlast : ∀ y ∈ s.1, cmp.less y x := fun y hy =>
      (List.pairwise_append.1 hl).2.2 y hy x List.mem_cons_self
    have hs : (s.emplace x).1 = s.1 ++ [x] := insertSorted_append x hlast
    have hl' : ((s.emplace x).1 ++ xs).Pairwise fun a b => cmp.less a b := by
      rwa [hs, List.append_assoc]
    have hxs := readEmplace_eq h (s.emplace x) hl' (done ++ f.bytes x) rest
      (fun y hy => hb y (List.mem_cons_of_mem _ hy))
      (fun y hy => hfit y (List.mem_cons_of_mem _ hy))
    simp only [List.length_cons, List.flatMap_cons, List.append_assoc, readEmplace,
      h.read (hb x List.mem_cons_self) (hfit x List.mem_cons_self), ok_bind, hxs]
    simp [hs]

theorem set {c : Serial α} {f : Format α} (h : Implements c f) (cmp : Comparator α) :
    Implements (.set c cmp) (.set f c.make cmp) where
  write {v} hb hlen S _ _ s := by
    have hlen' := hlen
    simp only [Format.set, List.length_append] at hlen'
    have hxs : ∀ s : S, writeEach c v.1 s = Sink.write (v.1.flatMap f.bytes) s :=
      fun s => writeEach_eq h s hb.2 (by omega)
    simp only [Serial.set, writeSize_eq hb.1, hxs]
    exact LawfulSink.write_bind _ _ s hlen
  read {t v} hb hfit done rest := by
    have hxs := readEmplace_eq h (.empty : OrderedSet cmp) v.2
      (done ++ Format.sizePrefix v.1.length) rest hb.2 hfit
    simp only [Serial.set, Format.set, List.append_assoc, readSize_eq hb.1, ok_bind,
      toNat_size hb.1, hxs]
    rfl

/-! ## Pairs, optionals, tuples -/

theorem pair {a : Serial α} {b : Serial β} {f : Format α} {g : Format β} (ha : Implements a f)
    (hb : Implements b g) : Implements (.pair a b) (.pair f g (a.make, b.make)) where
  write {v} hv hlen S _ _ s := by
    have hlen' := hlen
    simp only [Format.pair, List.length_append] at hlen'
    simp only [Serial.pair, Serial.entry, ha.write hv.1 (show _ < _ by omega),
      hb.write hv.2 (show _ < _ by omega)]
    exact LawfulSink.write_bind _ _ s hlen
  read {t v} hv hfit done rest := by
    simp only [Serial.pair, Serial.entry, Format.pair, List.append_assoc, ha.read hv.1 hfit.1,
      ok_bind, hb.read hv.2 hfit.2, pure_eq_ok]

theorem cons {a : Serial α} {b : Serial β} {f : Format α} {g : Format β} (ha : Implements a f)
    (hb : Implements b g) : Implements (.cons a b) (.cons f g) where
  write {v} hv hlen S _ _ s := by
    have hlen' := hlen
    simp only [Format.cons, List.length_append] at hlen'
    simp only [Serial.cons, ha.write hv.1 (show _ < _ by omega),
      hb.write hv.2 (show _ < _ by omega)]
    exact LawfulSink.write_bind _ _ s hlen
  read {t v} hv hfit done rest := by
    simp only [Serial.cons, Format.cons, List.append_assoc, ha.read hv.1 hfit.1, ok_bind,
      hb.read hv.2 hfit.2, pure_eq_ok]

theorem nil : Implements .nil .nil where
  write _ _ _ _ _ s := (LawfulSink.write_nil s).symm
  read _ _ done rest := by simp [Serial.nil, Format.nil]

theorem struct {a : Serial α} {f : Format α} (h : Implements a f) (init : α) :
    Implements (.struct a init) f where
  write hb hlen _ _ _ s := h.write hb hlen s
  read hb hfit done rest := h.read hb hfit done rest

theorem optional {c : Serial α} {f : Format α} (h : Implements c f) :
    Implements (.optional c) (.optional f c.make) where
  write {v} hb hlen S _ _ s := by
    cases v with
    | none =>
      simp only [Serial.optional, pure_eq_ok, bind_ok]
      rfl
    | some x =>
      have hlen' := hlen
      simp only [Format.optional, List.length_cons] at hlen'
      simp only [Serial.optional, Serial.int, Option.isSome_some, h.write (hb x rfl) (by omega)]
      exact LawfulSink.write_bind [1] _ s hlen
  read {t v} hb hfit done rest := by
    cases v with
    | none =>
      have hflag := Serial.int_read (n := 1) 0 0 done rest
      have hbytes : littleEndian 1 (0 : BitVec (8 * 1)).toNat = [0] := rfl
      rw [hbytes] at hflag
      simp only [Format.optional] at hfit
      simp only [Serial.optional, Format.optional, hflag, ok_bind, ne_eq, not_true_eq_false,
        ↓reduceIte, pure_eq_ok, hfit]
    | some x =>
      have hflag := Serial.int_read (n := 1) 0 1 done (f.bytes x ++ rest)
      have hbytes : littleEndian 1 (1 : BitVec (8 * 1)).toNat = [1] := rfl
      have hone : (1 : BitVec (8 * 1)) ≠ 0 := by decide
      rw [hbytes] at hflag
      simp only [Serial.optional, Format.optional, List.cons_append, List.nil_append] at hflag ⊢
      simp only [hflag, ok_bind, ne_eq, hone, not_false_eq_true, ↓reduceIte,
        h.read (hb x rfl) hfit, pure_eq_ok, List.append_assoc, List.singleton_append]

/-! ## Fixed bytes -/

section FixedBytes

open FixedBytes

theorem wordBytes_length : ∀ (k : Nat) (w : Word), (wordBytes k w).length = k
  | 0, _ => rfl
  | k + 1, w => by rw [wordBytes, List.length_append, wordBytes_length k]; rfl

theorem or_byte {temp : Word} {q : Nat} (h : temp.toNat = 256 * q) (b : UInt8) :
    (temp ||| BitVec.ofNat 128 b.toNat).toNat = 256 * q + b.toNat := by
  have hb : b.toNat < 2 ^ 8 := b.toNat_lt
  rw [BitVec.toNat_or, BitVec.toNat_ofNat, Nat.mod_eq_of_lt (by omega), h]
  exact (Nat.two_pow_add_eq_or_of_lt hb q).symm

theorem lowByte_toNat (w : Word) : (UInt8.ofNat (w &&& 0xff).toNat).toNat = w.toNat % 256 := by
  have h : (255 : Word).toNat = 2 ^ 8 - 1 := rfl
  rw [BitVec.toNat_and, h, Nat.and_two_pow_sub_one_eq_mod, UInt8.toNat_ofNat']
  omega

/-- `k` bytes of a word, behind `a` bytes that the constructor has taken already. -/
theorem setFromWordSequence_wordBytes : ∀ (k : Nat) {a q : Nat} {w temp : Word} (bs : List UInt8),
    a + k ≤ 15 → q < 256 ^ a → temp.toNat = 256 * q → w.toNat < 256 ^ k →
    ∃ temp' : Word, temp'.toNat = 256 * (q * 256 ^ k + w.toNat) ∧
      setFromWordSequence (wordBytes k w ++ bs) temp (16 - a) =
        setFromWordSequence bs temp' (16 - (a + k))
  | 0, a, q, w, temp, bs, _, _, htemp, hw => by
    simp only [Nat.pow_zero, Nat.lt_one_iff] at hw
    exact ⟨temp, by simp [htemp, hw], by simp [wordBytes]⟩
  | k + 1, a, q, w, temp, bs, hak, hq, htemp, hw => by
    have hw' : (w >>> 8).toNat = w.toNat / 256 := by
      rw [BitVec.toNat_ushiftRight, Nat.shiftRight_eq_div_pow]
    have hlt : w.toNat / 256 < 256 ^ k := by
      rwa [Nat.div_lt_iff_lt_mul (by decide), ← Nat.pow_succ]
    obtain ⟨temp', htemp', heq⟩ := setFromWordSequence_wordBytes k (w := w >>> 8)
      ([UInt8.ofNat (w &&& 0xff).toNat] ++ bs) (by omega) hq htemp (by rwa [hw'])
    have hmore : 1 < 16 - (a + k) := by omega
    have hor := or_byte htemp' (UInt8.ofNat (w &&& 0xff).toNat)
    have hsum : 256 * (q * 256 ^ k + w.toNat / 256) + w.toNat % 256 =
        q * 256 ^ (k + 1) + w.toNat := by
      calc 256 * (q * 256 ^ k + w.toNat / 256) + w.toNat % 256
          = q * 256 ^ (k + 1) + (256 * (w.toNat / 256) + w.toNat % 256) := by ring
        _ = q * 256 ^ (k + 1) + w.toNat := by rw [Nat.div_add_mod]
    have hbound : (q * 256 ^ (k + 1) + w.toNat) * 256 < 2 ^ 128 := by
      calc (q * 256 ^ (k + 1) + w.toNat) * 256
          < (q * 256 ^ (k + 1) + 256 ^ (k + 1)) * 256 := by omega
        _ = (q + 1) * 256 ^ (k + 2) := by ring
        _ ≤ 256 ^ a * 256 ^ (k + 2) := Nat.mul_le_mul_right _ hq
        _ = 256 ^ (a + k + 2) := by rw [← Nat.pow_add]; rfl
        _ ≤ 256 ^ 16 := Nat.pow_le_pow_right (by decide) (by omega)
        _ = 2 ^ 128 := by norm_num
    refine ⟨(temp' ||| BitVec.ofNat 128 (UInt8.ofNat (w &&& 0xff).toNat).toNat) <<< 8, ?_, ?_⟩
    · rw [BitVec.toNat_shiftLeft, hor, lowByte_toNat, hw', hsum, Nat.shiftLeft_eq, Nat.mod_eq_of_lt hbound,
        Nat.mul_comm]
    · rw [wordBytes, List.append_assoc, heq, List.singleton_append, setFromWordSequence,
        if_pos hmore]
      rfl

/-- A whole word comes back. -/
theorem setFromWordSequence_word (w : Word) (bs : List UInt8) :
    setFromWordSequence (wordBytes 16 w ++ bs) 0 16 = w :: setFromWordSequence bs 0 16 := by
  have hw' : (w >>> 8).toNat = w.toNat / 256 := by
    rw [BitVec.toNat_ushiftRight, Nat.shiftRight_eq_div_pow]
  have hlt : (w >>> 8).toNat < 256 ^ 15 := by
    have := w.isLt
    omega
  have hzero : (0 : Word).toNat = 256 * 0 := rfl
  obtain ⟨temp', htemp', heq⟩ := setFromWordSequence_wordBytes 15 (a := 0)
    ([UInt8.ofNat (w &&& 0xff).toNat] ++ bs) (by decide) (by decide) hzero hlt
  have hor := or_byte htemp' (UInt8.ofNat (w &&& 0xff).toNat)
  have hword : temp' ||| BitVec.ofNat 128 (UInt8.ofNat (w &&& 0xff).toNat).toNat = w := by
    apply BitVec.eq_of_toNat_eq
    rw [hor, lowByte_toNat, hw']
    omega
  rw [wordBytes, List.append_assoc]
  refine heq.trans ?_
  rw [List.singleton_append, setFromWordSequence, if_neg (by decide), hword]

/-- The last word comes back if its padding is zero. -/
theorem setFromWordSequence_last {padded : Nat} (hp : padded ≤ 15) {w : Word}
    (hw : w.toNat % 256 ^ padded = 0) :
    setFromWordSequence (wordBytes (16 - padded) (w >>> (8 * padded))) 0 16 = [w] := by
  rcases Nat.eq_zero_or_pos padded with rfl | hpos
  · have h := setFromWordSequence_word w []
    simpa [setFromWordSequence] using h
  · have hw' : (w >>> (8 * padded)).toNat = w.toNat / 256 ^ padded := by
      rw [BitVec.toNat_ushiftRight, Nat.shiftRight_eq_div_pow, Nat.pow_mul]
    have hlt : (w >>> (8 * padded)).toNat < 256 ^ (16 - padded) := by
      rw [hw', Nat.div_lt_iff_lt_mul (Nat.pow_pos (by decide)), ← Nat.pow_add,
        Nat.sub_add_cancel (by omega)]
      exact w.isLt
    have hzero : (0 : Word).toNat = 256 * 0 := rfl
    obtain ⟨temp', htemp', heq⟩ := setFromWordSequence_wordBytes (16 - padded) (a := 0) []
      (by omega) (by decide) hzero hlt
    have hleft : 16 - (0 + (16 - padded)) = padded := by omega
    rw [hw', Nat.zero_mul, Nat.zero_add] at htemp'
    have hval : temp'.toNat * 256 ^ (padded - 1) = w.toNat := by
      calc temp'.toNat * 256 ^ (padded - 1)
          = w.toNat / 256 ^ padded * (256 ^ (padded - 1) * 256) := by rw [htemp']; ring
        _ = w.toNat / 256 ^ padded * 256 ^ padded := by
          rw [← Nat.pow_succ, Nat.succ_eq_add_one, Nat.sub_add_cancel hpos]
        _ = w.toNat := Nat.div_mul_cancel (Nat.dvd_of_mod_eq_zero hw)
    rw [List.append_nil, Nat.sub_zero, hleft] at heq
    rw [heq, setFromWordSequence, if_pos (by omega)]
    split_ifs with h1
    · refine congrArg (fun x => [x]) (BitVec.eq_of_toNat_eq ?_)
      rw [BitVec.toNat_shiftLeft, Nat.shiftLeft_eq, Nat.pow_mul, hval, Nat.mod_eq_of_lt w.isLt]
    · have h1 : padded = 1 := by omega
      refine congrArg (fun x => [x]) (BitVec.eq_of_toNat_eq ?_)
      simpa [h1] using hval

theorem setFromWordSequence_extractLoop {padded : Nat} (hp : padded ≤ 15) : ∀ (ws : List Word),
    (∀ w ∈ ws.getLast?, w.toNat % 256 ^ padded = 0) →
    setFromWordSequence (extractLoop padded ws) 0 16 = ws
  | [], _ => rfl
  | [w], h => setFromWordSequence_last hp (h w rfl)
  | w :: w' :: ws, h => by
    rw [extractLoop, setFromWordSequence_word,
      setFromWordSequence_extractLoop hp (w' :: ws) (by simpa using h)]
    simp

theorem extractLoop_length {padded : Nat} (hp : padded ≤ 15) : ∀ (ws : List Word),
    (extractLoop padded ws).length = 16 * ws.length - padded
  | [] => by simp [extractLoop]
  | [w] => by simp [extractLoop, wordBytes_length]
  | w :: w' :: ws => by
    rw [extractLoop, List.length_append, wordBytes_length, extractLoop_length hp (w' :: ws)]
    · simp only [List.length_cons]
      omega
    · simp

theorem resize_toList (x : α) : ∀ {n : Nat} (v : List.Vector α n), resize x n v.toList = v
  | 0, ⟨[], _⟩ => rfl
  | n + 1, ⟨y :: ys, h⟩ => by
    have hys := resize_toList x (n := n) ⟨ys, Nat.succ.inj h⟩
    simp only [List.Vector.toList] at hys
    simp only [List.Vector.toList, resize, hys]
    rfl

theorem paddedBytes_le (size : Nat) : paddedBytes size ≤ 15 := by
  rw [paddedBytes, numWords]
  omega

theorem extract_length {size : Nat} (d : FixedBytes size) : d.extractAsByteArray.length = size := by
  rw [extractAsByteArray, extractLoop_length (paddedBytes_le size), List.Vector.toList_length,
    paddedBytes, numWords]
  omega

theorem ofByteArray_extract {size : Nat} {d : FixedBytes size} (h : d.ZeroPadding) :
    ofByteArray size d.extractAsByteArray = d := by
  rw [ofByteArray, extractAsByteArray,
    setFromWordSequence_extractLoop (paddedBytes_le size) _ h, resize_toList]

theorem fixedBytes (size : Nat) : Implements (.fixedBytes size) (.fixedBytes size) where
  write _ _ _ _ _ _ := rfl
  read {t v} _ hfit done rest := by
    simp only [Serial.fixedBytes, Format.fixedBytes, Datastream.read_append (extract_length v),
      ok_bind, pure_eq_ok, ofByteArray_extract hfit]

end FixedBytes

end Implements

/-! ## Variants -/

/-- The visits and `deserialize` implement the alternatives' formats. -/
structure AltImplements (c : Alternatives σ) (f : AltFormat σ) : Prop where
  index : ∀ v, c.index v = f.index v
  write : ∀ {v : σ}, f.Bounded v → (f.bytes v).length < 2 ^ 31 →
    ∀ {S : Type} [Sink S] [LawfulSink S] (s : S), c.write v s = Sink.write (f.bytes v) s
  deserialize : ∀ {v : σ}, f.Bounded v → f.Fits v → ∀ (done rest : List UInt8),
    c.deserialize (f.index v) ⟨done, f.bytes v ++ rest⟩ = .ok (v, ⟨done ++ f.bytes v, rest⟩)

namespace AltImplements

theorem nil : AltImplements .nil .nil where
  index v := v.elim
  write {v} := v.elim
  deserialize {v} := v.elim

theorem cons {c : Serial α} {f : Format α} {others : Alternatives σ} {fs : AltFormat σ}
    (h : Implements c f) (hs : AltImplements others fs) :
    AltImplements (.cons c others) (.cons f c.make fs) where
  index
    | .inl _ => rfl
    | .inr v => congrArg (· + 1) (hs.index v)
  write {v} hb hlen _ _ _ s := by
    cases v with
    | inl x => exact h.write hb hlen s
    | inr v => exact hs.write hb hlen s
  deserialize {v} hb hfit done rest := by
    cases v with
    | inl x =>
      simp only [Alternatives.cons, AltFormat.cons, Sum.elim_inl] at hb hfit ⊢
      simp only [h.read hb hfit, ok_bind, pure_eq_ok]
    | inr v =>
      simp only [Alternatives.cons, AltFormat.cons, Sum.elim_inr] at hb hfit ⊢
      simp only [hs.deserialize hb hfit, ok_bind, pure_eq_ok]

theorem variant {c : Serial α} {f : Format α} {others : Alternatives σ} {fs : AltFormat σ}
    (h : Implements c f) (hs : AltImplements others fs) :
    Implements (.variant c others) (AltFormat.cons f c.make fs).variant where
  write {v} hb hlen S _ _ s := by
    have halt := cons h hs
    have hlen' := hlen
    simp only [AltFormat.variant, List.length_append] at hlen'
    have hv : ∀ s : S, (Alternatives.cons c others).write v s =
        Sink.write ((AltFormat.cons f c.make fs).bytes v) s :=
      fun s => halt.write hb.2 (by omega) s
    simp only [Serial.variant, halt.index, writeSize_eq hb.1, hv]
    exact LawfulSink.write_bind _ _ s hlen
  read {t v} hb hfit done rest := by
    have halt := cons h hs
    simp only [Serial.variant, AltFormat.variant, List.append_assoc, readSize_eq hb.1, ok_bind,
      toNat_size hb.1, halt.deserialize hb.2 hfit]

end AltImplements

/-! ## All types -/

theorem Ty.bytes_of_primitive {t : Ty α} {p : Primitive α} (h : t.primitive? = some p) :
    t.format.bytes = p.repr := by
  cases t <;> simp only [Ty.primitive?, Option.some.injEq, reduceCtorEq] at h
  all_goals
    subst h
    rfl

mutual

/-- **The overloads of a type implement its packed form.** -/
theorem Ty.implements {α : Type} : ∀ t : Ty α, Implements t.serial t.format
  | .int n => .int n
  | .bool => .bool
  | .unsignedInt => .unsignedInt
  | .signedInt => .signedInt
  | .string => .string
  | .charVector => .charVector
  | .vector t => .sequence t.implements
  | .list t => .sequence t.implements
  | .deque t => .sequence t.implements
  | .set t cmp => .set t.implements cmp
  | .map k t cmp => .set (.pair k.implements t.implements) cmp.onKey
  | .optional t => .optional t.implements
  | .pair a b => .pair a.implements b.implements
  | .tuple ts => ts.implementsElements
  | .array t n => .array t.implements n
  | .cArray t n => by
    simp only [Ty.serial]
    cases hp : t.primitive? with
    | none => exact .cArrayEach t.implements n
    | some p => exact .cArrayBulk (Ty.bytes_of_primitive hp) n
  | .variant t ts => AltImplements.variant t.implements ts.implementsAlternatives
  | .fixedBytes size => .fixedBytes size
  | .struct members init => .struct members.implementsElements init

theorem Types.implementsElements {ρ σ : Type} : ∀ ts : Types ρ σ,
    Implements ts.elements ts.productFormat
  | .nil => .nil
  | .cons t ts => .cons t.implements ts.implementsElements

theorem Types.implementsAlternatives {ρ σ : Type} : ∀ ts : Types ρ σ,
    AltImplements ts.alternatives ts.sumFormat
  | .nil => .nil
  | .cons t ts => .cons t.implements ts.implementsAlternatives

end

/-! ## Packing and extracting -/

/-- The buffer that `pack` makes holds what a format's implementation writes. -/
theorem Implements.pack_eq {c : Serial α} {f : Format α} (h : Implements c f) {v : α}
    (hb : f.Bounded v) (hlen : (f.bytes v).length < 2 ^ 31) : c.pack v = .ok (f.bytes v) := by
  have hsize : (UInt32.ofNat (f.bytes v).length).toNat = (f.bytes v).length := by
    rw [UInt32.toNat_ofNat']
    omega
  have hpack : c.packSize v = .ok (UInt32.ofNat (f.bytes v).length) := by
    rw [Serial.packSize, h.write hb hlen]
    simp [Sink.write]
  simp only [Serial.pack, hpack, ok_bind, hsize, h.write hb hlen, Datastream.write_eq hlen,
    Datastream.start, List.length_replicate, Nat.le_refl, ↓reduceIte, pure_eq_ok]
  simp

namespace Ty

variable (t : Ty α) (v : α)

theorem pack_eq (hb : t.format.Bounded v) (hlen : (t.format.bytes v).length < 2 ^ 31) :
    t.pack v = .ok (t.format.bytes v) := t.implements.pack_eq hb hlen

/-- **Round trip of the whole format**: a value that fits the default-constructed object comes back
from its packed bytes, and the stream is left at whatever follows them. -/
theorem extract_pack (r : List UInt8) (hb : t.format.Bounded v)
    (hfit : t.format.Fits t.serial.make v) (hlen : (t.format.bytes v).length < 2 ^ 31) :
    ∃ bytes, t.pack v = .ok bytes ∧ t.extract (.start (bytes ++ r)) = .ok (v, ⟨bytes, r⟩) := by
  refine ⟨t.format.bytes v, pack_eq t v hb hlen, ?_⟩
  rw [extract, Datastream.start, t.implements.read hb hfit, List.nil_append]

variable {t v}

theorem Packs.pack_eq (h : t.Packs v) : t.pack v = .ok (t.format.bytes v) :=
  Ty.pack_eq t v h.bounded h.small

theorem Packs.unpack_eq (h : t.Packs v) : t.unpack (t.format.bytes v) = .ok v := by
  have hread := t.implements.read h.bounded h.fits [] []
  rw [List.append_nil] at hread
  simp only [unpack, extract, Datastream.start, hread, ok_bind, pure_eq_ok]

theorem Packs.bytes_inj {w : α} (hv : t.Packs v) (hw : t.Packs w)
    (h : t.format.bytes v = t.format.bytes w) : v = w := by
  have hunpack := hv.unpack_eq
  rw [h, hw.unpack_eq] at hunpack
  exact (Except.ok.inj hunpack).symm

end Ty

/-- A structure of a `std::vector<uint16_t>`, a `bool[2]` and a `std::optional<std::string>`. -/
def sampleStruct : Ty (List (BitVec (8 * 2)) × List.Vector Bool 2 × Option (List UInt8) × Unit) :=
  .struct (.cons (.vector (.int 2)) (.cons (.cArray .bool 2) (.cons (.optional .string) .nil)))
    ([], .replicate 2 false, none, ())

theorem extract_pack_sample : ∃ bytes,
    sampleStruct.pack ([1, 300], ⟨[true, false], rfl⟩, some [65], ()) = .ok bytes ∧
    sampleStruct.extract (.start (bytes ++ [7])) =
      .ok (([1, 300], ⟨[true, false], rfl⟩, some [65], ()), ⟨bytes, [7]⟩) := by
  refine Ty.extract_pack sampleStruct _ [7] ?_ ?_ ?_
  · refine ⟨⟨by decide, fun _ _ => trivial⟩, ⟨by decide, fun _ _ => trivial⟩, ?_, trivial⟩
    rintro x ⟨⟩
    exact (by decide : [(65 : UInt8)].length < 2 ^ 32)
  · exact ⟨.cons trivial (.cons trivial .nil), .cons trivial (.cons trivial .nil), trivial, trivial⟩
  · decide

/-- A `fixed_bytes<20>` whose padding is not zero, and a structure whose constructor gives its
optional a value, come back changed. -/
theorem extract_pack_changed :
    ((Ty.fixedBytes 20).pack ⟨[1, 1], rfl⟩ = .ok (List.replicate 15 0 ++ [1, 0, 0, 0, 0]) ∧
      (Ty.fixedBytes 20).extract (.start (List.replicate 15 0 ++ [1, 0, 0, 0, 0])) =
        .ok (⟨[1, 0], rfl⟩, ⟨List.replicate 15 0 ++ [1, 0, 0, 0, 0], []⟩)) ∧
    (Ty.struct (.cons (.optional (.int 1)) .nil) (some 5, ())).pack (none, ()) = .ok [0] ∧
    (Ty.struct (.cons (.optional (.int 1)) .nil) (some 5, ())).extract (.start [0]) =
      .ok ((some 5, ()), ⟨[0], []⟩) := by
  refine ⟨⟨?_, ?_⟩, ?_, ?_⟩
  · decide
  · decide
  · decide
  · decide

end Wasmlib
