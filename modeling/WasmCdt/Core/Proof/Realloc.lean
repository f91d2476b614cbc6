import WasmCdt.Core.Proof.Allocator
import WasmCdt.Core.Proof.SimpleMalloc

/-!
# `realloc` of both allocators

The manager resizes a block where it is, or copies it. The default allocator only hands out the memory
at its cursor, which nothing has been written to: it has the block's bytes if these are zero.

* `WorldOk.reallocs`, `SimpleWorld.resizes_iff`: one call, of each allocator.
* `SimpleWorld.UnwrittenOk.run`: in a run the memory at the cursor stays zero.
* `realloc_contract`: **`realloc` after any run.**
-/

namespace Wasmlib

open ByteMem

/-! ## The manager -/

namespace World

/-- A fine call of `realloc` resizes the block, unless it returns a null pointer; and with a null pointer
`realloc` is `malloc`. -/
def Reallocs (w : World) : Prop :=
  (∀ b ∈ w.live, ∀ n, w.Valid (.realloc (some b.ptr) n) → w.Fine (.realloc (some b.ptr) n) →
    ∀ q σ', w.manager.realloc (some b.ptr) n = .ok (some q, σ') →
      b.Resized w.manager.mem σ'.mem w.live q n) ∧
  ∀ n < 2 ^ 32, w.manager.realloc none n = w.manager.malloc n

end World

theorem realloc_none {n : Nat} (hlt : n < 2 ^ 32) (σ : MemoryManager) :
    σ.realloc none n = σ.malloc n := by
  rcases eq_or_ne n 0 with rfl | hn
  · rfl
  · rw [realloc_null hn, malloc_adjust hn hlt]

theorem WorldOk.reallocs {w : World} {ts : Nat → List Tile} (h : WorldOk w ts) : w.Reallocs := by
  refine ⟨fun b hb n hvalid hfine q σ' hq => ?_, fun n hn => realloc_none hn w.manager⟩
  rcases eq_or_ne n 0 with rfl | hn
  · cases hq
  · rcases h.realloc hb hn hvalid.2 hfine with hstop | ⟨new, σ₁, ts₁, hok, -, hresized, -⟩
    · rw [hstop] at hq
      cases hq
    · rw [hok] at hq
      cases hq
      exact hresized

/-! ## The default allocator -/

/-- The pages that a request asks for are more than its limit leaves. -/
def Dsmalloc.Refuses (σ : Dsmalloc) (n : Nat) : Prop :=
  σ.limit < σ.currentMemory + pagesFor σ.currentMemory n (align (addSize σ.lastPtr n) 8)

namespace SimpleWorld

open Dsmalloc

/-- `realloc` resizes the block, unless it returns a null pointer. -/
def Resizes (w : SimpleWorld) (b : Block) (n : Nat) : Prop :=
  ∀ q σ', w.allocator.realloc b.ptr n = .ok (q, σ') → q ≠ 0 →
    b.Resized w.allocator.mem σ'.mem w.blocks q n

/-- The requests are for 32-bit sizes, and the program writes into its own blocks. -/
def Valid (w : SimpleWorld) : Request → Prop
  | .write ptr i _ => ∃ b ∈ w.blocks, b.ptr = ptr ∧ i < b.size
  | r => InWord r

/-- Every request of a run is valid, in the world that it finds. -/
def Along (w : SimpleWorld) : List Request → Prop
  | [] => True
  | r :: rs => w.Valid r ∧ ∀ w', w.step r = .ok w' → w'.Along rs

/-- Nothing has been written to the memory of the heap that is not handed out yet. -/
def Unwritten (heapBase : Nat) (σ : Dsmalloc) : Prop :=
  ∀ x, heapBase ≤ x → σ.lastPtr ≤ x → σ.mem x = 0

structure UnwrittenOk (heapBase : Nat) (w : SimpleWorld) : Prop extends SimpleOk heapBase w where
  unwritten : Unwritten heapBase w.allocator

variable {heapBase : Nat} {w w' : SimpleWorld}

/-- A request for `n` bytes takes memory at the cursor and writes nothing. -/
theorem Unwritten.alloc (h : SimpleOk heapBase w) (hu : Unwritten heapBase w.allocator) {n : Nat}
    (hlt : n < 2 ^ 32) {q : Nat} {σ' : Dsmalloc} (hok : w.allocator.alloc n = .ok (q, σ')) :
    Unwritten heapBase σ' := by
  rcases Nat.eq_zero_or_pos n with rfl | hn
  · cases hok
    exact hu
  · rcases alloc_cases h.cursor hn hlt with hstop | ⟨σ₁, halloc, -, hgrant, -⟩
    · rw [hstop] at hok
      cases hok
    · rw [halloc] at hok
      cases hok
      have hcursor : σ'.lastPtr = (w.allocator.lastPtr + n + 7) / 8 * 8 := hgrant.cursor
      intro x hbase hx
      rw [hgrant.mem]
      exact hu x hbase (by omega)

theorem Unwritten.zero {σ : Dsmalloc} (h : Unwritten heapBase σ) (ptr n : Nat) :
    Unwritten heapBase { σ with mem := Dsmalloc.zero ptr n σ.mem } := by
  intro x hbase hx
  change Dsmalloc.zero ptr n σ.mem x = 0
  unfold Dsmalloc.zero
  split
  · rfl
  · exact h x hbase hx

/-- **A valid request leaves the memory at the cursor unwritten.** -/
theorem Unwritten.step (h : SimpleOk heapBase w) (hu : Unwritten heapBase w.allocator) :
    ∀ r, w.Valid r → w.step r = .ok w' → Unwritten heapBase w'.allocator
  | .malloc size, hr, hok => by
    obtain ⟨⟨q, σ'⟩, halloc, hw⟩ := bind_eq_ok hok
    cases hw
    exact Unwritten.alloc h hu hr halloc
  | .calloc count size, hr, hok => by
    have hlt : count * size < 2 ^ 32 := hr
    obtain ⟨⟨q, σ'⟩, hcalloc, hw⟩ := bind_eq_ok hok
    cases hw
    obtain ⟨⟨ptr, σ₁⟩, halloc, hσ⟩ := bind_eq_ok hcalloc
    rw [Nat.mod_eq_of_lt hlt] at halloc
    have hu₁ := Unwritten.alloc h hu hlt halloc
    by_cases hptr : ptr = 0
    · simp only [hptr, ne_eq, not_true_eq_false, if_false, pure_eq_ok] at hσ
      cases hσ
      exact hu₁
    · simp only [hptr, ne_eq, not_false_eq_true, if_true, pure_eq_ok] at hσ
      cases hσ
      exact hu₁.zero _ _
  | .realloc ptr size, hr, hok => by
    obtain ⟨⟨q, σ'⟩, halloc, hw⟩ := bind_eq_ok hok
    cases hw
    exact Unwritten.alloc h hu hr halloc
  | .free ptr, _, hok => by
    cases hok
    exact hu
  | .write ptr i v, hr, hok => by
    cases hok
    obtain ⟨b, hb, rfl, hi⟩ := hr
    have hbelow := (h.below b hb).2.2
    intro x hbase hx
    have hcursor : w.allocator.lastPtr ≤ x := hx
    have hne : x ≠ b.ptr + i := by omega
    change store8 (b.ptr + i) v w.allocator.mem x = 0
    rw [store8, if_neg hne]
    exact hu x hbase hcursor

theorem Valid.inWord {r : Request} (h : w.Valid r) : InWord r := by
  cases r with
  | malloc size => exact h
  | calloc count size => exact h
  | realloc ptr size => exact h
  | free ptr => exact h
  | write ptr i v => exact Nat.two_pow_pos 32

theorem UnwrittenOk.run {rs : List Request} (h : UnwrittenOk heapBase w) (ha : w.Along rs) :
    run rs w = .error noPages ∨ ∃ w', run rs w = .ok w' ∧ UnwrittenOk heapBase w' := by
  induction rs generalizing w with
  | nil => exact .inr ⟨w, rfl, h⟩
  | cons r rs ih =>
    obtain ⟨hr, hrest⟩ := ha
    have hcons : SimpleWorld.run (r :: rs) w = w.step r >>= SimpleWorld.run rs := List.foldlM_cons
    rw [hcons]
    rcases h.toSimpleOk.step r hr.inWord with hstop | ⟨w₁, hok, h₁⟩
    · exact .inl (by rw [hstop, error_bind])
    · rw [hok, ok_bind]
      exact ih ⟨h₁, Unwritten.step h.toSimpleOk h.unwritten r hr hok⟩ (hrest w₁ hok)

theorem refuses_iff {σ : Dsmalloc} (h : CursorOk heapBase σ) {n : Nat} (hn : 0 < n)
    (hlt : n < 2 ^ 32) : σ.Refuses n ↔ σ.alloc n = .error noPages := by
  rw [alloc_eq h.pages (h.pages_le.trans h.limit_le) hn hlt rfl rfl]
  unfold Dsmalloc.Refuses
  constructor
  · intro hrefused
    rw [if_neg (by omega)]
  · intro herror
    split at herror
    · cases herror
    · omega

/-- **When `realloc` resizes a block**: the size is 0, or the pages are refused, or the bytes that it
should move are all zero. -/
theorem resizes_iff (h : UnwrittenOk heapBase w) {b : Block} (hb : b ∈ w.blocks) {n : Nat}
    (hlt : n < 2 ^ 32) : w.Resizes b n ↔
      n = 0 ∨ w.allocator.Refuses n ∨ ∀ i < min b.size n, w.allocator.mem (b.ptr + i) = 0 := by
  rcases Nat.eq_zero_or_pos n with rfl | hn
  · refine iff_of_true (fun q σ' hok hq => ?_) (.inl rfl)
    cases hok
    exact absurd rfl hq
  · rw [refuses_iff h.cursor hn hlt]
    rcases alloc_cases h.cursor hn hlt with hstop | ⟨σ₁, halloc, -, hgrant, hbase⟩
    · refine iff_of_true (fun q σ' hok => ?_) (.inr (.inl hstop))
      unfold Dsmalloc.realloc at hok
      rw [hstop] at hok
      cases hok
    · have hbelow := (h.below b hb).2.2
      -- the block would move to the cursor, where the memory is zero
      have hzero : ∀ i, w.allocator.mem (w.allocator.lastPtr + i) = 0 := fun i =>
        h.unwritten _ (by omega) (Nat.le_add_right _ i)
      constructor
      · intro hresizes
        refine .inr (.inr fun i hi => ?_)
        have hmoved := (hresizes _ σ₁ halloc (by omega)).moved i hi
        rw [← hmoved, hgrant.mem, hzero]
      · rintro (rfl | hstop | hbytes) q σ' hok -
        · exact absurd hn (Nat.lt_irrefl 0)
        · rw [halloc] at hstop
          cases hstop
        · unfold Dsmalloc.realloc at hok
          rw [halloc] at hok
          cases hok
          refine ⟨fun i hi => ?_, fun c _ _ i _ => by rw [hgrant.mem]⟩
          rw [hgrant.mem, hzero, hbytes i hi]

theorem UnwrittenOk.start {currentMemory limit : Nat} (h : Config heapBase currentMemory limit)
    (hend : ¬StartsAtEnd heapBase currentMemory limit) {mem : Mem}
    (hmem : ∀ x, heapBase ≤ x → mem x = 0) :
    UnwrittenOk heapBase (SimpleWorld.start mem heapBase currentMemory limit) :=
  ⟨.start h hend mem, fun x hbase _ => hmem x hbase⟩

theorem Along.cons {r : Request} {rs : List Request} (hr : w.Valid r) (h : w.step r = .ok w')
    (hrs : w'.Along rs) : w.Along (r :: rs) := by
  refine ⟨hr, fun w₁ h₁ => ?_⟩
  rw [h] at h₁
  cases h₁
  exact hrs

end SimpleWorld

/-! ## Runs -/

/-- **`realloc` after any run.** The manager's, of fine calls, keeps the C contract. The default
allocator's keeps it exactly if the size is 0, or the pages are refused, or the bytes that it should move
are all zero; and with a null pointer it is `malloc`. -/
theorem realloc_contract {initialHeap pages heapBase currentMemory limit : Nat}
    (hlayout : World.Layout initialHeap pages) (calls : List Call)
    (hfine : World.Along (fun w call => w.Valid call ∧ w.Fine call) calls
      (World.start initialHeap pages))
    (hconfig : SimpleWorld.Config heapBase currentMemory limit)
    (hend : ¬SimpleWorld.StartsAtEnd heapBase currentMemory limit)
    {mem : Mem} (hmem : ∀ x, heapBase ≤ x → mem x = 0) (requests : List Request)
    (hvalid : (SimpleWorld.start mem heapBase currentMemory limit).Along requests) :
    (World.run calls (World.start initialHeap pages) = .error MemoryManager.noMemory ∨
      ∃ w, World.run calls (World.start initialHeap pages) = .ok w ∧ w.Reallocs) ∧
    (SimpleWorld.run requests (SimpleWorld.start mem heapBase currentMemory limit) =
        .error SimpleWorld.noPages ∨
      ∃ w, SimpleWorld.run requests (SimpleWorld.start mem heapBase currentMemory limit) = .ok w ∧
        ∀ n < 2 ^ 32, w.allocator.realloc 0 n = w.allocator.malloc n ∧
          ∀ b ∈ w.blocks, w.Resizes b n ↔
            n = 0 ∨ w.allocator.Refuses n ∨
            ∀ i < min b.size n, w.allocator.mem (b.ptr + i) = 0) := by
  constructor
  · rcases (WorldOk.start hlayout).run calls hfine with hstop | ⟨w, ts, hok, hw⟩
    · exact .inl hstop
    · exact .inr ⟨w, hok, hw.reallocs⟩
  · rcases (SimpleWorld.UnwrittenOk.start hconfig hend hmem).run hvalid with hstop | ⟨w, hok, hw⟩
    · exact .inl hstop
    · exact .inr ⟨w, hok, fun n hn => ⟨rfl, fun b hb => SimpleWorld.resizes_iff hw hb hn⟩⟩

/-- A block that grows in place and one that is copied; and a block that is not zero. -/
theorem realloc_contract_sample :
    (World.run [.malloc 4, .malloc 20, .write 1028 0 7, .realloc (some 1028) 40]
        (World.start 1024 1) = .error MemoryManager.noMemory ∨
      ∃ w, World.run [.malloc 4, .malloc 20, .write 1028 0 7, .realloc (some 1028) 40]
        (World.start 1024 1) = .ok w ∧ w.Reallocs) ∧
    (SimpleWorld.run [.malloc 8, .write 66560 0 7] (.start (fun _ => 0) 66560 2 1024) =
        .error SimpleWorld.noPages ∨
      ∃ w, SimpleWorld.run [.malloc 8, .write 66560 0 7] (.start (fun _ => 0) 66560 2 1024) = .ok w ∧
        ∀ n < 2 ^ 32, w.allocator.realloc 0 n = w.allocator.malloc n ∧
          ∀ b ∈ w.blocks, w.Resizes b n ↔
            n = 0 ∨ w.allocator.Refuses n ∨
            ∀ i < min b.size n, w.allocator.mem (b.ptr + i) = 0) := by
  refine realloc_contract ⟨by decide, by decide, by decide⟩ _ (by decide +kernel)
    ⟨by decide, by decide, by decide, by decide⟩ (by simp [SimpleWorld.StartsAtEnd])
    (fun _ _ => rfl) _ ?_
  refine .cons (by decide : 8 < 2 ^ 32) rfl (.cons ⟨⟨66560, 8⟩, .head _, rfl, by decide⟩ rfl trivial)

/-- The default allocator returns a block without the bytes of the block that should have moved. -/
theorem realloc_moves_nothing : SimpleWorld.Config 66560 2 1024 ∧
    (SimpleWorld.start (fun _ => 0) 66560 2 1024).Along [.malloc 8, .write 66560 0 7] ∧
    ∃ w, SimpleWorld.run [.malloc 8, .write 66560 0 7] (.start (fun _ => 0) 66560 2 1024) = .ok w ∧
      (⟨66560, 8⟩ : Block) ∈ w.blocks ∧ ¬w.Resizes ⟨66560, 8⟩ 16 := by
  refine ⟨⟨by decide, by decide, by decide, by decide⟩, ?_, _, rfl, .head _, fun hresizes => ?_⟩
  · exact .cons (by decide : 8 < 2 ^ 32) rfl (.cons ⟨⟨66560, 8⟩, .head _, rfl, by decide⟩ rfl trivial)
  · have hmoved := (hresizes 66568 _ rfl (by decide)).moved 0 (by decide)
    exact absurd hmoved (by decide)

end Wasmlib
