import WasmCdt.Core.PointerStream
import WasmCdt.Core.Proof.Varint

/-!
# Where a stream of pointers reads and writes

* `PointerStream.step_inside_iff`: one call, on any position.
* `PointerStream.run_inside_iff`: **a run stays in its buffer exactly when each call meets its
  condition.**
* `PointerStream.Represents`: in the buffer, the pointers are the stream of lists.
-/

namespace Wasmlib

open ByteMem

namespace PointerStream

variable {ds ds' : PointerStream}

/-- The buffer does not wrap. -/
def Ordered (ds : PointerStream) : Prop := ds.start ≤ ds.finish

instance : Decidable ds.Ordered := inferInstanceAs (Decidable (_ ≤ _))

theorem ofBuffer_ordered (b : Buffer) (mem : Mem) : (ofBuffer b mem).Ordered := by
  have hfits := b.fits
  simp only [Ordered, ofBuffer]
  bv_omega

/-- A call that returns: its check has passed, and the buffer stays. -/
theorem step_ok {call : Call} (h : ds.step call = .ok ds') :
    ds'.start = ds.start ∧ ds'.finish = ds.finish := by
  cases call with
  | skip s => cases h; exact ⟨rfl, rfl⟩
  | seekp p => cases h; exact ⟨rfl, rfl⟩
  | read s =>
    obtain ⟨⟨_, ds₁⟩, hread, h⟩ := bind_eq_ok h
    obtain ⟨_, -, hread⟩ := bind_eq_ok hread
    cases hread
    cases h
    exact ⟨rfl, rfl⟩
  | get =>
    obtain ⟨⟨_, ds₁⟩, hget, h⟩ := bind_eq_ok h
    obtain ⟨_, -, hget⟩ := bind_eq_ok hget
    cases hget
    cases h
    exact ⟨rfl, rfl⟩
  | write s d =>
    obtain ⟨_, -, h⟩ := bind_eq_ok h
    cases h
    exact ⟨rfl, rfl⟩
  | put c =>
    obtain ⟨_, -, h⟩ := bind_eq_ok h
    cases h
    exact ⟨rfl, rfl⟩

/-! ## One call -/

/-- The check that a call makes. -/
def Passes (ds : PointerStream) : Call → Prop
  | .skip _ | .seekp _ => True
  | .read s => s ≤ ds.finish - ds.pos
  | .write s _ => s.sle (ds.finish - ds.pos)
  | .put _ | .get => ds.pos < ds.finish

theorem step_of_check {call : Call} {p : Bool} {msg : String} {f : Unit → Exec PointerStream}
    {ds₁ : PointerStream} (hf : f () = .ok ds₁) (hstep : ds.step call = (check p msg >>= f)) :
    ((∃ ds', ds.step call = .ok ds') ↔ p) ∧ (¬p → ∃ e, ds.step call = .error e) := by
  rw [hstep, check_bind]
  cases p with
  | false => exact ⟨by simp, fun _ => ⟨_, rfl⟩⟩
  | true => exact ⟨by simp [hf], by simp⟩

/-- A call returns if its check passes, and aborts otherwise. -/
theorem step_spec (call : Call) :
    ((∃ ds', ds.step call = .ok ds') ↔ ds.Passes call) ∧
      (¬ds.Passes call → ∃ e, ds.step call = .error e) := by
  cases call with
  | skip s => exact ⟨⟨fun _ => trivial, fun _ => ⟨_, rfl⟩⟩, fun h => absurd trivial h⟩
  | seekp p => exact ⟨⟨fun _ => trivial, fun _ => ⟨_, rfl⟩⟩, fun h => absurd trivial h⟩
  | read s =>
    have hstep : ds.step (.read s) =
        (check (s ≤ ds.finish - ds.pos) "read" >>= fun _ => .ok (ds.skip s)) := by
      simp only [step, read, bind_assoc]
      rfl
    simpa only [Passes, decide_eq_true_eq] using step_of_check rfl hstep
  | get =>
    have hstep : ds.step .get =
        (check (ds.pos < ds.finish) "get" >>= fun _ => .ok (ds.skip 1)) := by
      simp only [step, get, bind_assoc]
      rfl
    simpa only [Passes, decide_eq_true_eq] using step_of_check rfl hstep
  | write s d => exact step_of_check rfl rfl
  | put c =>
    have hstep : ds.step (.put c) = (check (ds.pos < ds.finish) "put" >>= fun _ =>
      .ok { ds with pos := ds.pos + 1, mem := store8 ds.pos.toNat c ds.mem }) := rfl
    simpa only [Passes, decide_eq_true_eq] using step_of_check rfl hstep

/-- What a call touches is in the buffer, by its end points. -/
theorem inside_iff (call : Call) : ds.Inside call ↔
    (ds.Passes call → call.size = 0 ∨
      ds.start.toNat ≤ ds.pos.toNat ∧ ds.pos.toNat + call.size ≤ ds.finish.toNat) := by
  constructor
  · intro hin hpass
    obtain ⟨ds', hok⟩ := (step_spec call).1.2 hpass
    by_cases hsize : call.size = 0
    · exact .inl hsize
    · have hfirst := hin.inside ds' hok ds.pos.toNat (by omega) (by omega)
      have hlast := hin.inside ds' hok (ds.pos.toNat + call.size - 1) (by omega) (by omega)
      omega
  · intro hbounds
    constructor
    · intro ds' hok a hpos hlt
      have hin := hbounds ((step_spec call).1.1 ⟨ds', hok⟩)
      omega
    · intro hbehind hsize
      refine (step_spec call).2 fun hpass => ?_
      have hin := hbounds hpass
      have hlt : ds.finish.toNat < ds.pos.toNat := hbehind
      omega

theorem valid_iff : ds.valid ↔
    ds.start.toNat ≤ ds.pos.toNat ∧ ds.pos.toNat ≤ ds.finish.toNat := by
  simp only [valid, Bool.and_eq_true, decide_eq_true_eq, BitVec.le_def]
  exact and_comm

theorem toNat_remaining (ds : PointerStream) : ds.remaining.toNat =
    (2 ^ 32 - ds.pos.toNat + ds.finish.toNat) % 2 ^ 32 := BitVec.toNat_sub _ _

/-- The signed comparison, by the sign of the size. -/
theorem sle_iff (s r : BitVec 32) : s.sle r ↔
    if s.toNat < 2 ^ 31 then r.toNat < 2 ^ 31 ∧ s.toNat ≤ r.toNat
    else r.toNat < 2 ^ 31 ∨ s.toNat ≤ r.toNat := by
  have hs := s.isLt
  have hr := r.isLt
  simp only [BitVec.sle, decide_eq_true_eq, BitVec.toInt_eq_toNat_cond]
  split_ifs <;> omega

/-- **One call** aborts or stays in the buffer exactly when it meets its condition. -/
theorem step_inside_iff (h : ds.Ordered) (call : Call) : ds.Inside call ↔ ds.Meets call := by
  rw [inside_iff]
  have hord : ds.start.toNat ≤ ds.finish.toNat := h
  have hpos := ds.pos.isLt
  have hfinish := ds.finish.isLt
  have hrem := toNat_remaining ds
  cases call with
  | skip s => simp [Call.size, Meets]
  | seekp p => simp [Call.size, Meets]
  | read s =>
    have hzero : s = 0 ↔ s.toNat = 0 := by simp [BitVec.toNat_eq]
    simp only [Passes, Call.size, Meets, valid_iff, hzero, BitVec.le_def, BitVec.lt_def]
    change (s.toNat ≤ ds.remaining.toNat → _) ↔ _
    omega
  | write s d =>
    have hzero : s = 0 ↔ s.toNat = 0 := by simp [BitVec.toNat_eq]
    simp only [Passes, Call.size, Meets, valid_iff, hzero, BitVec.lt_def, sle_iff]
    change ((if s.toNat < 2 ^ 31 then ds.remaining.toNat < 2 ^ 31 ∧ s.toNat ≤ ds.remaining.toNat
      else ds.remaining.toNat < 2 ^ 31 ∨ s.toNat ≤ ds.remaining.toNat) → _) ↔ _
    split_ifs <;> omega
  | put c =>
    simp only [Passes, Call.size, Meets, BitVec.lt_def, BitVec.le_def]
    omega
  | get =>
    simp only [Passes, Call.size, Meets, BitVec.lt_def, BitVec.le_def]
    omega

/-! ## Runs -/

theorem Ordered.step {call : Call} (h : ds.Ordered) (hstep : ds.step call = .ok ds') :
    ds'.Ordered := by
  obtain ⟨hstart, hfinish⟩ := step_ok hstep
  rw [Ordered, hstart, hfinish]
  exact h

/-- Properties of a call that agree on every stream agree along every run. -/
theorem along_iff {P Q : PointerStream → Call → Prop}
    (hPQ : ∀ ds : PointerStream, ds.Ordered → ∀ call, P ds call ↔ Q ds call) :
    ∀ (calls : List Call) {ds : PointerStream}, ds.Ordered → (Along P calls ds ↔ Along Q calls ds)
  | [], _, _ => Iff.rfl
  | call :: calls, ds, h => by
    rw [Along, Along, hPQ ds h call]
    refine and_congr_right fun _ => forall_congr' fun ds' => ?_
    exact imp_congr_right fun hstep => along_iff hPQ calls (h.step hstep)

/-- **A run over any buffer**: every call aborts or stays in the buffer exactly when every call meets
its condition. -/
theorem run_inside_iff (b : Buffer) (mem : Mem) (calls : List Call) :
    Along Inside calls (ofBuffer b mem) ↔ Along Meets calls (ofBuffer b mem) :=
  along_iff (fun _ => step_inside_iff) calls (ofBuffer_ordered b mem)

/-- Four bytes at address 16. -/
def sampleStream : PointerStream := ofBuffer ⟨16, 4, by decide⟩ fun _ => 0

def zeroBytes : Nat → UInt8 := fun _ => 0

/-- A read behind the end, a `put` before the start, and a write of a negative size. -/
theorem run_not_inside : ¬Along Inside [.seekp 8, .read 1] sampleStream ∧
    ¬Along Inside [.seekp 0xFFFFFFFF, .put 7] sampleStream ∧
    ¬Along Inside [.write 0x80000000 zeroBytes] sampleStream := by
  refine ⟨fun h => ?_, fun h => ?_, fun h => ?_⟩
  · have hread := (h.2 _ rfl).1
    exact absurd ((step_inside_iff (by decide) _).1 hread) (by decide)
  · have hput := (h.2 _ rfl).1
    exact absurd ((step_inside_iff (by decide) _).1 hput) (by decide)
  · have hwrite := h.1
    exact absurd ((step_inside_iff (by decide) _).1 hwrite) (by decide)

/-! ## The stream of lists -/

theorem length_bytesAt (m : Mem) (a n : Nat) : (bytesAt m a n).length = n := by simp [bytesAt]

theorem bytesAt_add (m : Mem) (a n k : Nat) :
    bytesAt m a (n + k) = bytesAt m a n ++ bytesAt m (a + n) k := by
  simp [bytesAt, List.range_add, Nat.add_assoc]

theorem bytesAt_congr {m m' : Mem} {a n : Nat} (h : ∀ x, a ≤ x → x < a + n → m x = m' x) :
    bytesAt m a n = bytesAt m' a n := by
  refine List.map_congr_left fun i hi => h _ (by omega) ?_
  rw [List.mem_range] at hi
  omega

/-- The pointers are in the buffer, and the bytes before and behind the position are the stream's. -/
structure Represents (ds : PointerStream) (l : Datastream) : Prop where
  start_le : ds.start.toNat ≤ ds.pos.toNat
  le_finish : ds.pos.toNat ≤ ds.finish.toNat
  done : l.done = bytesAt ds.mem ds.start.toNat (ds.pos.toNat - ds.start.toNat)
  rest : l.rest = bytesAt ds.mem ds.pos.toNat (ds.finish.toNat - ds.pos.toNat)

/-- Both stop in the same way, or both return, with related values. -/
def Simulates {α β : Type} (R : α → β → Prop) : Exec α → Exec β → Prop
  | .ok a, .ok b => R a b
  | .error e, .error e' => e = e'
  | _, _ => False

namespace Represents

variable {l : Datastream}

theorem ofBuffer (b : Buffer) (mem : Mem) : Represents (.ofBuffer b mem)
    (.start (bytesAt mem b.start.toNat b.size.toNat)) := by
  have hfits := b.fits
  have hend : (b.start + b.size).toNat = b.start.toNat + b.size.toNat := by
    rw [BitVec.toNat_add]
    omega
  refine ⟨le_rfl, ?_, ?_, ?_⟩
  · simp only [PointerStream.ofBuffer, hend]
    omega
  · simp [PointerStream.ofBuffer, Datastream.start, bytesAt]
  · simp only [PointerStream.ofBuffer, Datastream.start, hend, Nat.add_sub_cancel_left]

theorem length_rest (h : Represents ds l) :
    l.rest.length = ds.finish.toNat - ds.pos.toNat := by
  rw [h.rest, length_bytesAt]

theorem toNat_remaining (h : Represents ds l) : (ds.finish - ds.pos).toNat = l.rest.length := by
  have hle := h.le_finish
  have hfinish := ds.finish.isLt
  rw [h.length_rest, BitVec.toNat_sub]
  omega

/-- After `n` bytes of the rest, in a memory that agrees but for these. -/
theorem advance (h : Represents ds l) {s : BitVec 32} {mem : Mem} {d : List UInt8}
    (hs : s.toNat ≤ l.rest.length)
    (hmem : AgreeOff ds.pos.toNat (ds.pos.toNat + s.toNat) ds.mem mem)
    (hd : d = bytesAt mem ds.pos.toNat s.toNat) :
    Represents { ds with pos := ds.pos + s, mem := mem } ⟨l.done ++ d, l.rest.drop s.toNat⟩ := by
  have hstart := h.start_le
  have hle := h.le_finish
  have hlen := h.length_rest
  have hfinish := ds.finish.isLt
  have hpos : (ds.pos + s).toNat = ds.pos.toNat + s.toNat := by
    rw [BitVec.toNat_add]
    omega
  refine ⟨?_, ?_, ?_, ?_⟩
  · simp only [hpos]
    omega
  · simp only [hpos]
    omega
  · have hsplit : ds.pos.toNat + s.toNat - ds.start.toNat =
        (ds.pos.toNat - ds.start.toNat) + s.toNat := by omega
    have hback : ds.start.toNat + (ds.pos.toNat - ds.start.toNat) = ds.pos.toNat := by omega
    simp only [hpos, hsplit, bytesAt_add, hback]
    rw [← hd, h.done]
    congr 1
    exact bytesAt_congr fun x _ hx => (hmem x (by omega)).symm
  · have hsplit : ds.finish.toNat - ds.pos.toNat =
        s.toNat + (ds.finish.toNat - (ds.pos.toNat + s.toNat)) := by omega
    simp only [hpos]
    rw [h.rest, hsplit, bytesAt_add, List.drop_left' (length_bytesAt _ _ _)]
    exact bytesAt_congr fun x hx _ => (hmem x (by omega)).symm

theorem take_rest (h : Represents ds l) {n : Nat} (hn : n ≤ l.rest.length) :
    l.rest.take n = bytesAt ds.mem ds.pos.toNat n := by
  rw [h.length_rest] at hn
  obtain ⟨k, hk⟩ := Nat.exists_eq_add_of_le hn
  rw [h.rest, hk, bytesAt_add, List.take_left' (length_bytesAt _ _ _)]

/-- In the buffer, `read` is that of the lists. -/
theorem read (h : Represents ds l) (s : BitVec 32) :
    Simulates (fun r r' => r.1 = r'.1 ∧ Represents r.2 r'.2) (ds.read s) (l.read s.toNat) := by
  have hcheck : decide (s ≤ ds.finish - ds.pos) = decide (s.toNat ≤ l.rest.length) := by
    rw [← h.toNat_remaining]
    rfl
  rw [PointerStream.read, Datastream.read, check_bind, check_bind, hcheck]
  by_cases hs : s.toNat ≤ l.rest.length
  · simp only [hs, decide_true, ↓reduceIte, pure_eq_ok, Simulates]
    exact ⟨(h.take_rest hs).symm, h.advance hs AgreeOff.rfl (h.take_rest hs)⟩
  · simp only [hs, decide_false, Bool.false_eq_true, ↓reduceIte, Simulates]

theorem get (h : Represents ds l) :
    Simulates (fun r r' => r.1 = r'.1 ∧ Represents r.2 r'.2) ds.get l.get := by
  have hcheck : decide (ds.pos < ds.finish) = decide (l.rest ≠ []) := by
    have hlen := h.length_rest
    refine decide_eq_decide.2 ?_
    rw [← List.length_pos_iff, hlen, BitVec.lt_def]
    omega
  rw [PointerStream.get, check_bind, hcheck]
  cases hrest : l.rest with
  | nil => simp [Datastream.get, hrest, Simulates]
  | cons c rest =>
    have hone : (1 : BitVec 32).toNat ≤ l.rest.length := by simp [hrest]
    have htake := h.take_rest hone
    have hc : c = ds.mem ds.pos.toNat := by
      rw [hrest] at htake
      simpa [bytesAt] using htake
    have hnext := h.advance hone AgreeOff.rfl htake
    rw [hrest] at hnext
    simp only [Datastream.get, hrest, ne_eq, List.cons_ne_nil, not_false_eq_true, decide_true,
      ↓reduceIte, pure_eq_ok, Simulates]
    exact ⟨hc.symm, hnext⟩

/-- In a buffer of less than 2 GiB, `write` of a size that is not negative is that of the lists. -/
theorem write (h : Represents ds l) (hrest : l.rest.length < 2 ^ 31) {s : BitVec 32}
    (hs : s.toNat < 2 ^ 31) (d : Nat → UInt8) :
    Simulates Represents (ds.write s d) (Sink.write ((List.range s.toNat).map d) l) := by
  have hlen : ((List.range s.toNat).map d).length = s.toNat := by simp
  have hcheck : s.sle (ds.finish - ds.pos) = decide (s.toNat ≤ l.rest.length) := by
    rw [Bool.eq_iff_iff, sle_iff, h.toNat_remaining, decide_eq_true_eq]
    simp only [hs, ↓reduceIte, hrest, true_and]
  have hbytes : (List.range s.toNat).map d =
      bytesAt (storeBytes ds.pos.toNat s.toNat d ds.mem) ds.pos.toNat s.toNat := by
    refine List.map_congr_left fun i hi => ?_
    have hi : i < s.toNat := List.mem_range.1 hi
    simp [storeBytes, hi]
  have hmem : AgreeOff ds.pos.toNat (ds.pos.toNat + s.toNat) ds.mem
      (storeBytes ds.pos.toNat s.toNat d ds.mem) := by
    intro x hx
    have hout : ¬(ds.pos.toNat ≤ x ∧ x < ds.pos.toNat + s.toNat) := by omega
    simp only [storeBytes, hout, ↓reduceIte]
  rw [PointerStream.write, check_bind, hcheck, Datastream.write_eq (by rw [hlen]; exact hs), hlen]
  by_cases hroom : s.toNat ≤ l.rest.length
  · simp only [hroom, decide_true, ↓reduceIte, pure_eq_ok, Simulates]
    exact h.advance hroom hmem hbytes
  · simp only [hroom, decide_false, Bool.false_eq_true, ↓reduceIte, Simulates]

end Represents

end PointerStream

end Wasmlib
