import WasmCdt.Core.Exec
import WasmCdt.Lib.Leb128
import Mathlib.Data.Vector.Basic

/-!
# Streams

`core/datastream.hpp` and `core/varint.hpp`: the streams, and a pair `operator<<` / `operator>>` for
every type that can be packed. `Serial α` is one such pair with the default constructor of the type;
the pair of a compound type is a function of the pairs of its parts, and is called once per part as
the C++ overloads call each other.
-/

namespace Wasmlib

/-! ## Streams -/

/-- `datastream<char*>`: the bytes from `_start` to `_pos` and from `_pos` to `_end`. -/
structure Datastream where
  done : List UInt8
  rest : List UInt8
  deriving DecidableEq, Repr

/-- `datastream<size_t>`. -/
structure SizeStream where
  size : UInt32
  deriving DecidableEq, Repr

/-- What `operator<<` asks of a stream. -/
class Sink (S : Type) where
  write : List UInt8 → S → Exec S

instance : Sink SizeStream where
  write d ds := .ok ⟨ds.size + UInt32.ofNat d.length⟩

/-- The check compares with `(int32_t)s`; a size it lets pass by its sign is copied past the end. -/
instance : Sink Datastream where
  write d ds := do
    check (Text.int32 d.length ≤ ds.rest.length) "write"
    if d.length ≤ ds.rest.length then pure ⟨ds.done ++ d, ds.rest.drop d.length⟩
    else .error .fault

namespace Datastream

/-- The stream over a whole buffer. -/
def start (buffer : List UInt8) : Datastream := ⟨[], buffer⟩

def read (s : Nat) (ds : Datastream) : Exec (List UInt8 × Datastream) := do
  check (s ≤ ds.rest.length) "read"
  pure (ds.rest.take s, ⟨ds.done ++ ds.rest.take s, ds.rest.drop s⟩)

def get (ds : Datastream) : Exec (UInt8 × Datastream) :=
  match ds.rest with
  | [] => .error (.abort "get")
  | c :: rest => .ok (c, ⟨ds.done ++ [c], rest⟩)

end Datastream

/-- The `operator<<` and `operator>>` of a type. `make` is the default constructor's value, where a
member that C++ leaves indeterminate is zero; `read` is given the object it reads into. -/
structure Serial (α : Type) where
  make : α
  write : {S : Type} → [Sink S] → α → S → Exec S
  read : α → Datastream → Exec (α × Datastream)

/-! ## Variable-length integers -/

/-- The `do` loop of the two `operator<<` of `varint.hpp`. Ten rounds empty a `uint64_t`. -/
def writeGroups {S : Type} [Sink S] : Nat → Nat → S → Exec S
  | 0, _, ds => pure ds
  | n + 1, val, ds => do
    let b := UInt8.ofNat val &&& 0x7f ||| (if 0 < val >>> 7 then 0x80 else 0)
    let ds ← Sink.write [b] ds
    if val >>> 7 ≠ 0 then writeGroups n (val >>> 7) ds else pure ds

/-- The `do` loop of the two `operator>>`; every round takes a byte, so `n` is the bytes that are
left. A shift by 32 bits or more is undefined. -/
def readGroups : Nat → Nat → Nat → Datastream → Exec (Nat × Datastream)
  | 0, _, _, _ => .error (.abort "get")
  | n + 1, v, shift, ds => do
    let (b, ds) ← ds.get
    if 32 ≤ shift then .error .fault
    else
      let v := v ||| ((b &&& 0x7f).toNat <<< shift) % 2 ^ 32
      if b &&& 0x80 ≠ 0 then readGroups n v (shift + 7) ds else pure (v, ds)

def writeUnsigned {S : Type} [Sink S] (value : BitVec 32) (ds : S) : Exec S :=
  writeGroups 10 value.toNat ds

def readUnsigned (ds : Datastream) : Exec (BitVec 32 × Datastream) := do
  let (v, ds) ← readGroups ds.rest.length 0 0 ds
  pure (BitVec.ofNat 32 v, ds)

/-- `unsigned_int`. -/
def Serial.unsignedInt : Serial (BitVec 32) where
  make := 0
  write := writeUnsigned
  read _ := readUnsigned

/-- `(v.value<<1) ^ (v.value>>31)`; the left shift moves the bits also of a negative value. -/
def zigzag (value : BitVec 32) : BitVec 32 := (value <<< 1) ^^^ value.sshiftRight 31

/-- `(v>>1) ^ (~(v&1)+1ull)`, with the sum and the exclusive or in 64 bits. -/
def unzigzag (v : BitVec 32) : BitVec 32 :=
  ((v >>> 1).setWidth 64 ^^^ ((~~~(v &&& 1)).setWidth 64 + 1)).setWidth 32

/-- `signed_int`. -/
def Serial.signedInt : Serial (BitVec 32) where
  make := 0
  write value ds := writeUnsigned (zigzag value) ds
  read _ ds := do
    let (v, ds) ← readUnsigned ds
    pure (unzigzag v, ds)

/-- `ds << unsigned_int( v.size() )`. -/
def writeSize {S : Type} [Sink S] (size : Nat) (ds : S) : Exec S :=
  writeUnsigned (BitVec.ofNat 32 size) ds

/-! ## Primitive types -/

/-- The low `n` bytes of `x`, least significant first. -/
def littleEndian : Nat → Nat → List UInt8
  | 0, _ => []
  | n + 1, x => UInt8.ofNat x :: littleEndian n (x / 256)

def ofLittleEndian : List UInt8 → Nat
  | [] => 0
  | b :: bs => b.toNat + 256 * ofLittleEndian bs

/-- The types with `is_primitive`. An integer of `n` bytes, signed or not, is its bits; an
enumeration is the integer under it. -/
inductive Primitive : Type → Type 1
  | int (n : Nat) : Primitive (BitVec (8 * n))
  | bool : Primitive Bool

namespace Primitive

def size {α : Type} : Primitive α → Nat
  | .int n => n
  | .bool => 1

/-- The bytes of the object in memory. -/
def repr {α : Type} : Primitive α → α → List UInt8
  | .int n, x => littleEndian n x.toNat
  | .bool, x => [if x then 1 else 0]

/-- The object with these bytes; a `bool` has the byte 0 or 1. -/
def ofRepr {α : Type} : Primitive α → List UInt8 → Exec α
  | .int n, bs => .ok (BitVec.ofNat (8 * n) (ofLittleEndian bs))
  | .bool, bs => if bs = [0] then .ok false else if bs = [1] then .ok true else .error .fault

def zero {α : Type} : Primitive α → α
  | .int n => 0#(8 * n)
  | .bool => false

/-- The bytes of an array in memory. -/
def reprArray {α : Type} (p : Primitive α) (v : List α) : List UInt8 := v.flatMap p.repr

def ofReprArray {α : Type} (p : Primitive α) : (n : Nat) → List UInt8 → Exec (List.Vector α n)
  | 0, _ => pure .nil
  | n + 1, bs => do
    let x ← p.ofRepr (bs.take p.size)
    let xs ← p.ofReprArray n (bs.drop p.size)
    pure (x ::ᵥ xs)

end Primitive

/-- The primitive overload, for an integer of `n` bytes. -/
def Serial.int (n : Nat) : Serial (BitVec (8 * n)) where
  make := 0#(8 * n)
  write v ds := Sink.write (littleEndian n v.toNat) ds
  read _ ds := do
    let (d, ds) ← ds.read n
    pure (BitVec.ofNat (8 * n) (ofLittleEndian d), ds)

/-- `bool` goes through a `uint8_t`. -/
def Serial.bool : Serial Bool where
  make := false
  write d ds := (Serial.int 1).write (if d then 1 else 0) ds
  read _ ds := do
    let (t, ds) ← (Serial.int 1).read 0 ds
    pure (t != 0, ds)

/-! ## Strings and blocks of bytes -/

/-- `std::string`. -/
def Serial.string : Serial (List UInt8) where
  make := []
  write v ds := do
    let ds ← writeSize v.length ds
    if v.length ≠ 0 then Sink.write v ds else pure ds
  read _ ds := do
    let (s, ds) ← readUnsigned ds
    ds.read s.toNat

/-- `std::vector<char>`. -/
def Serial.charVector : Serial (List UInt8) where
  make := []
  write v ds := do
    let ds ← writeSize v.length ds
    Sink.write v ds
  read _ ds := do
    let (s, ds) ← readUnsigned ds
    ds.read s.toNat

/-! ## Sequences -/

/-- `for( const auto& i : v ) ds << i;` -/
def writeEach {S α : Type} [Sink S] (c : Serial α) : List α → S → Exec S
  | [], ds => pure ds
  | x :: xs, ds => do
    let ds ← c.write x ds
    writeEach c xs ds

/-- `for( auto& i : v ) ds >> i;` -/
def readEach {α : Type} (c : Serial α) :
    {n : Nat} → List.Vector α n → Datastream → Exec (List.Vector α n × Datastream)
  | 0, v, ds => pure (v, ds)
  | _ + 1, ⟨x :: xs, h⟩, ds => do
    let (x, ds) ← c.read x ds
    let (xs, ds) ← readEach c ⟨xs, Nat.succ.inj h⟩ ds
    pure (x ::ᵥ xs, ds)

/-- `v.resize(n)`: elements are dropped, or default-constructed at the end. -/
def resize {α : Type} (x : α) : (n : Nat) → List α → List.Vector α n
  | 0, _ => .nil
  | n + 1, [] => x ::ᵥ resize x n []
  | n + 1, y :: ys => y ::ᵥ resize x n ys

/-- The body that `std::vector`, `std::list` and `std::deque` share. -/
def Serial.sequence {α : Type} (c : Serial α) : Serial (List α) where
  make := []
  write v ds := do
    let ds ← writeSize v.length ds
    writeEach c v ds
  read v ds := do
    let (s, ds) ← readUnsigned ds
    let (v, ds) ← readEach c (resize c.make s.toNat v) ds
    pure (v.toList, ds)

/-- `std::vector<T>` for any other `T` than `char`. -/
def Serial.vector {α : Type} (c : Serial α) : Serial (List α) := .sequence c

/-- `std::list<T>`. -/
def Serial.list {α : Type} (c : Serial α) : Serial (List α) := .sequence c

/-- `std::deque<T>`. -/
def Serial.deque {α : Type} (c : Serial α) : Serial (List α) := .sequence c

/-- `std::array<T,N>`: no size in front. -/
def Serial.array {α : Type} (c : Serial α) (n : Nat) : Serial (List.Vector α n) where
  make := .replicate n c.make
  write v ds := writeEach c v.toList ds
  read v ds := readEach c v ds

/-- `T[N]` of a type that is not primitive. -/
def Serial.cArrayEach {α : Type} (c : Serial α) (n : Nat) : Serial (List.Vector α n) where
  make := .replicate n c.make
  write v ds := do
    let ds ← writeSize n ds
    writeEach c v.toList ds
  read v ds := do
    let (s, ds) ← readUnsigned ds
    check (n == s.toNat) "T[] size and unpacked size don't match"
    readEach c v ds

/-- `T[N]` of a primitive type: one copy of the whole memory. -/
def Serial.cArrayBulk {α : Type} (p : Primitive α) (n : Nat) : Serial (List.Vector α n) where
  make := .replicate n p.zero
  write v ds := do
    let ds ← writeSize n ds
    Sink.write (p.reprArray v.toList) ds
  read _ ds := do
    let (s, ds) ← readUnsigned ds
    check (n == s.toNat) "T[] size and unpacked size don't match"
    let (d, ds) ← ds.read (n * p.size)
    let v ← p.ofReprArray n d
    pure (v, ds)

/-! ## Sets and maps -/

/-- A comparison that `std::set` and `std::map` may be used with. -/
structure Comparator (α : Type) where
  less : α → α → Bool
  irrefl : ∀ a, less a a = false
  trans : ∀ {a b c}, less a b → less b c → less a c

/-- The comparison of the keys of a map's entries. -/
def Comparator.onKey {κ β : Type} (cmp : Comparator κ) : Comparator (κ × β) where
  less a b := cmp.less a.1 b.1
  irrefl a := cmp.irrefl a.1
  trans := cmp.trans

/-- The elements of a `std::set` in the order of iteration. -/
def OrderedSet {α : Type} (cmp : Comparator α) : Type :=
  {l : List α // l.Pairwise fun a b => cmp.less a b}

/-- The entries of a `std::map` in the order of iteration. -/
def OrderedMap {κ : Type} (cmp : Comparator κ) (β : Type) : Type :=
  OrderedSet (cmp.onKey (β := β))

namespace OrderedSet

variable {α : Type} {cmp : Comparator α}

def empty : OrderedSet cmp := ⟨[], .nil⟩

/-- Inserts `x` before the first greater element, unless an equivalent one is there. -/
def insertSorted (cmp : Comparator α) (x : α) : List α → List α
  | [] => [x]
  | y :: ys =>
    if cmp.less x y then x :: y :: ys
    else if cmp.less y x then y :: insertSorted cmp x ys
    else y :: ys

theorem mem_insertSorted {x z : α} :
    ∀ {l : List α}, z ∈ insertSorted cmp x l → z = x ∨ z ∈ l
  | [], h => by simpa [insertSorted] using h
  | y :: ys, h => by
    simp only [insertSorted] at h
    split_ifs at h with hxy hyx
    · simpa using h
    · rcases List.mem_cons.1 h with rfl | h
      · exact .inr List.mem_cons_self
      · rcases mem_insertSorted h with h | h
        · exact .inl h
        · exact .inr (List.mem_cons_of_mem _ h)
    · exact .inr h

theorem insertSorted_pairwise (x : α) : ∀ {l : List α},
    l.Pairwise (fun a b => cmp.less a b) →
    (insertSorted cmp x l).Pairwise fun a b => cmp.less a b
  | [], _ => by simp [insertSorted]
  | y :: ys, h => by
    obtain ⟨hy, hys⟩ := List.pairwise_cons.1 h
    simp only [insertSorted]
    split_ifs with hxy hyx
    · refine List.pairwise_cons.2 ⟨?_, h⟩
      intro z hz
      rcases List.mem_cons.1 hz with rfl | hz
      · exact hxy
      · exact cmp.trans hxy (hy z hz)
    · refine List.pairwise_cons.2 ⟨?_, insertSorted_pairwise x hys⟩
      intro z hz
      rcases mem_insertSorted hz with rfl | hz
      · exact hyx
      · exact hy z hz
    · exact h

def emplace (x : α) (s : OrderedSet cmp) : OrderedSet cmp :=
  ⟨insertSorted cmp x s.1, insertSorted_pairwise x s.2⟩

end OrderedSet

/-- The loop of `operator>>` for `std::set`, `n` elements to go. -/
def readEmplace {α : Type} (c : Serial α) {cmp : Comparator α} :
    Nat → OrderedSet cmp → Datastream → Exec (OrderedSet cmp × Datastream)
  | 0, s, ds => pure (s, ds)
  | n + 1, s, ds => do
    let (v, ds) ← c.read c.make ds
    readEmplace c n (s.emplace v) ds

/-- `std::set<T>`. -/
def Serial.set {α : Type} (c : Serial α) (cmp : Comparator α) : Serial (OrderedSet cmp) where
  make := .empty
  write s ds := do
    let ds ← writeSize s.1.length ds
    writeEach c s.1 ds
  read _ ds := do
    let (sz, ds) ← readUnsigned ds
    readEmplace c sz.toNat .empty ds

/-- `ds << i.first << i.second` and `ds >> k >> v`, into fresh `k` and `v`. -/
def Serial.entry {κ β : Type} (k : Serial κ) (c : Serial β) : Serial (κ × β) where
  make := (k.make, c.make)
  write i ds := do
    let ds ← k.write i.1 ds
    c.write i.2 ds
  read _ ds := do
    let (x, ds) ← k.read k.make ds
    let (v, ds) ← c.read c.make ds
    pure ((x, v), ds)

/-- `std::map<K,V>`. -/
def Serial.map {κ β : Type} (k : Serial κ) (c : Serial β) (cmp : Comparator κ) :
    Serial (OrderedMap cmp β) := .set (.entry k c) cmp.onKey

/-! ## Optional, pair, tuple, structure -/

/-- `std::optional<T>`. Without a value in the stream the target stays as it is. -/
def Serial.optional {α : Type} (c : Serial α) : Serial (Option α) where
  make := none
  write opt ds := do
    let valid := if opt.isSome then 1 else 0
    let ds ← (Serial.int 1).write valid ds
    match opt with
    | some x => c.write x ds
    | none => pure ds
  read opt ds := do
    let (valid, ds) ← (Serial.int 1).read 0 ds
    if valid ≠ 0 then
      let (val, ds) ← c.read c.make ds
      pure (some val, ds)
    else pure (opt, ds)

/-- `std::pair<T1,T2>`: read into fresh objects. -/
def Serial.pair {α β : Type} (a : Serial α) (b : Serial β) : Serial (α × β) := .entry a b

/-- The rest of a tuple's elements, or of a structure's members: none. -/
def Serial.nil : Serial Unit where
  make := ()
  write _ ds := pure ds
  read _ ds := pure ((), ds)

/-- An element of a tuple, or a member of a structure, before the others: read in place. -/
def Serial.cons {α β : Type} (a : Serial α) (b : Serial β) : Serial (α × β) where
  make := (a.make, b.make)
  write t ds := do
    let ds ← a.write t.1 ds
    b.write t.2 ds
  read t ds := do
    let (x, ds) ← a.read t.1 ds
    let (y, ds) ← b.read t.2 ds
    pure ((x, y), ds)

/-- `WASMLIB_SERIALIZE` of a structure with these members, whose default constructor makes `init`. -/
def Serial.struct {α : Type} (members : Serial α) (init : α) : Serial α where
  make := init
  write := members.write
  read := members.read

/-! ## Variant -/

/-- The alternatives of a variant from one index on: `index()`, the visit, and `deserialize`. -/
structure Alternatives (σ : Type) where
  index : σ → Nat
  write : {S : Type} → [Sink S] → σ → S → Exec S
  deserialize : Nat → Datastream → Exec (σ × Datastream)

/-- Past the last alternative. -/
def Alternatives.nil : Alternatives Empty where
  index := Empty.elim
  write v _ := v.elim
  deserialize _ _ := .error (.abort "invalid variant index")

def Alternatives.cons {α σ : Type} (c : Serial α) (others : Alternatives σ) :
    Alternatives (α ⊕ σ) where
  index
    | .inl _ => 0
    | .inr v => others.index v + 1
  write
    | .inl x, ds => c.write x ds
    | .inr v, ds => others.write v ds
  deserialize
    | 0, ds => do
      let (tmp, ds) ← c.read c.make ds
      pure (.inl tmp, ds)
    | i + 1, ds => do
      let (v, ds) ← others.deserialize i ds
      pure (.inr v, ds)

/-- `std::variant<T, Ts...>`, default-constructed with a `T`. -/
def Serial.variant {α σ : Type} (c : Serial α) (others : Alternatives σ) : Serial (α ⊕ σ) where
  make := .inl c.make
  write var ds := do
    let ds ← writeSize ((Alternatives.cons c others).index var) ds
    (Alternatives.cons c others).write var ds
  read _ ds := do
    let (index, ds) ← readUnsigned ds
    (Alternatives.cons c others).deserialize index.toNat ds

end Wasmlib
