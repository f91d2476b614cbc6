import WasmCdt.Core.Reuse
import WasmCdt.Core.Proof.RoundTrip

/-!
# What stays of an object that is read into

* `Profile`: whether an overload reads where the stream has ended, and whether a part of the target
  may stay, before further bytes or at the end of the stream; one rule per combinator.
* `StreamTy.profile`: the overloads of a type have the profile of its form.
* `StreamTy.fresh_iff`: **reading forgets the target exactly when the type keeps nothing.**
-/

namespace Wasmlib

variable {α β γ κ σ : Type}

/-- `operator>>`, given the object that is read into. -/
abbrev Reader (α : Type) : Type := α → Datastream → Exec (α × Datastream)

namespace Reader

/-- The bytes are read into any object, whatever is behind them. -/
def Reads (f : Reader α) (bytes : List UInt8) : Prop :=
  ∀ x done tail, ∃ v, f x ⟨done, bytes ++ tail⟩ = .ok (v, ⟨done ++ bytes, tail⟩)

/-- The bytes leave a difference between two objects, with `tail` behind them. -/
def Leaks (f : Reader α) (tail : List UInt8) : Prop :=
  ∃ bytes x y, ∀ done, ∃ v w, v ≠ w ∧
    f x ⟨done, bytes ++ tail⟩ = .ok (v, ⟨done ++ bytes, tail⟩) ∧
    f y ⟨done, bytes ++ tail⟩ = .ok (w, ⟨done ++ bytes, tail⟩)

/-- Two objects become equal, or the stream ends in `P`. -/
def Settles (f : Reader α) (P : Datastream → Prop) : Prop :=
  ∀ x y v w ds ds', f x ds = .ok (v, ds') → f y ds = .ok (w, ds') → v = w ∨ P ds'

/-- Whether the read succeeds, and where it ends, does not depend on the object. -/
def Oblivious (f : Reader α) : Prop :=
  ∀ x y ds, (∃ e, f x ds = .error e ∧ f y ds = .error e) ∨
    ∃ v w ds', f x ds = .ok (v, ds') ∧ f y ds = .ok (w, ds')

theorem Oblivious.end_eq {f : Reader α} (h : f.Oblivious) {x y v w : α} {ds ds₁ ds₂ : Datastream}
    (hx : f x ds = .ok (v, ds₁)) (hy : f y ds = .ok (w, ds₂)) : ds₁ = ds₂ := by
  rcases h x y ds with ⟨e, he, -⟩ | ⟨v', w', ds', hv, hw⟩
  · rw [he] at hx
    cases hx
  · rw [hv] at hx
    rw [hw] at hy
    cases hx
    cases hy
    rfl

end Reader

/-- The stream has ended. -/
def AtEnd (ds : Datastream) : Prop := ds.rest = []

def Never (_ : Datastream) : Prop := False

/-- How an overload treats its target. -/
structure Profile (f : Reader α) (nothing before keeps : Bool) : Prop where
  target : Nonempty α
  oblivious : f.Oblivious
  reads : ∃ bytes, f.Reads bytes
  nothing : ∀ x done, if nothing then ∃ v, f x ⟨done, []⟩ = .ok (v, ⟨done, []⟩)
    else ∃ e, f x ⟨done, []⟩ = .error e
  before : if before then ∀ tail, f.Leaks tail else f.Settles AtEnd
  keeps : if keeps then f.Leaks [] else f.Settles Never

namespace Profile

variable {f : Reader α} {g : Reader β} {n b k n' b' k' : Bool}

/-- At the end of the stream, a read that succeeds leaves it there. -/
theorem atEnd (h : Profile f n b k) {x v : α} {ds ds' : Datastream} (hds : AtEnd ds)
    (hf : f x ds = .ok (v, ds')) : AtEnd ds' := by
  obtain ⟨done, rest⟩ := ds
  obtain rfl : rest = [] := hds
  have hnothing := h.nothing x done
  cases n with
  | false =>
    obtain ⟨e, he⟩ := hnothing
    rw [he] at hf
    cases hf
  | true =>
    obtain ⟨w, hw⟩ := hnothing
    rw [hw] at hf
    cases hf
    rfl

/-- What stays before further bytes stays at the end. -/
theorem keeps_of_before (h : Profile f n true k) : k = true := by
  cases k with
  | true => rfl
  | false =>
    obtain ⟨bytes, x, y, hleak⟩ := h.before []
    obtain ⟨v, w, hne, hx, hy⟩ := hleak []
    rcases h.keeps x y v w _ _ hx hy with heq | hnever
    · exact absurd heq hne
    · exact hnever.elim

/-- An overload that does not look at its target. -/
theorem fresh (bytes : List UInt8) (target : α) (hf : ∀ x y, f x = f y) (hreads : f.Reads bytes)
    (hnothing : ∀ done, if n then ∃ v, f target ⟨done, []⟩ = .ok (v, ⟨done, []⟩)
      else ∃ e, f target ⟨done, []⟩ = .error e) : Profile f n false false := by
  have settles : ∀ P, f.Settles P := by
    intro P x y v w ds ds' hx hy
    rw [hf x y, hy] at hx
    cases hx
    exact .inl rfl
  refine ⟨⟨target⟩, fun x y ds => ?_, ⟨bytes, hreads⟩, fun x done => ?_, settles _, settles _⟩
  · rw [hf x y]
    cases hy : f y ds with
    | error e => exact .inl ⟨e, rfl, rfl⟩
    | ok r => exact .inr ⟨r.1, r.1, r.2, rfl, rfl⟩
  · rw [hf x target]
    exact hnothing done

end Profile

/-! ## One after the other -/

namespace Reader

variable {f : Reader α} {g : Reader β} {mk : α → β → γ} {fst : γ → α} {snd : γ → β}

/-- Two parts of an object, each read in place. -/
def andThen (f : Reader α) (g : Reader β) (mk : α → β → γ) (fst : γ → α) (snd : γ → β) :
    Reader γ := fun t ds => do
  let (x, ds) ← f (fst t) ds
  let (y, ds) ← g (snd t) ds
  pure (mk x y, ds)

theorem andThen_ok {t : γ} {x : α} {y : β} {ds ds₁ ds₂ : Datastream}
    (hf : f (fst t) ds = .ok (x, ds₁)) (hg : g (snd t) ds₁ = .ok (y, ds₂)) :
    andThen f g mk fst snd t ds = .ok (mk x y, ds₂) := by
  simp only [andThen, hf, ok_bind, hg, pure_eq_ok]

theorem andThen_inv {t v : γ} {ds ds₂ : Datastream}
    (h : andThen f g mk fst snd t ds = .ok (v, ds₂)) : ∃ x y ds₁, v = mk x y ∧
      f (fst t) ds = .ok (x, ds₁) ∧ g (snd t) ds₁ = .ok (y, ds₂) := by
  obtain ⟨⟨x, ds₁⟩, hf, h⟩ := bind_eq_ok h
  obtain ⟨⟨y, ds₂⟩, hg, h⟩ := bind_eq_ok h
  cases h
  exact ⟨x, y, ds₁, rfl, hf, hg⟩

theorem andThen_error_left {t : γ} {ds : Datastream} {e : Stop} (hf : f (fst t) ds = .error e) :
    andThen f g mk fst snd t ds = .error e := by
  simp only [andThen, hf, error_bind]

theorem andThen_error_right {t : γ} {x : α} {ds ds₁ : Datastream} {e : Stop}
    (hf : f (fst t) ds = .ok (x, ds₁)) (hg : g (snd t) ds₁ = .error e) :
    andThen f g mk fst snd t ds = .error e := by
  simp only [andThen, hf, ok_bind, hg, error_bind]

/-- The two targets, put together. -/
structure Parts (mk : α → β → γ) (fst : γ → α) (snd : γ → β) : Prop where
  fst_mk : ∀ x y, fst (mk x y) = x
  snd_mk : ∀ x y, snd (mk x y) = y

theorem Oblivious.andThen (hf : f.Oblivious) (hg : g.Oblivious) :
    (andThen f g mk fst snd).Oblivious := by
  intro t u ds
  rcases hf (fst t) (fst u) ds with ⟨e, hx, hy⟩ | ⟨x, y, ds₁, hx, hy⟩
  · exact .inl ⟨e, andThen_error_left hx, andThen_error_left hy⟩
  · rcases hg (snd t) (snd u) ds₁ with ⟨e, hx', hy'⟩ | ⟨x', y', ds₂, hx', hy'⟩
    · exact .inl ⟨e, andThen_error_right hx hx', andThen_error_right hy hy'⟩
    · exact .inr ⟨_, _, ds₂, andThen_ok hx hx', andThen_ok hy hy'⟩

theorem Reads.andThen {bytes bytes' : List UInt8} (hf : f.Reads bytes) (hg : g.Reads bytes') :
    (andThen f g mk fst snd).Reads (bytes ++ bytes') := by
  intro t done tail
  obtain ⟨x, hx⟩ := hf (fst t) done (bytes' ++ tail)
  obtain ⟨y, hy⟩ := hg (snd t) (done ++ bytes) tail
  refine ⟨mk x y, ?_⟩
  rw [List.append_assoc, ← List.append_assoc done]
  exact andThen_ok hx hy

/-- A difference in the first part. -/
theorem Leaks.andThen_left (bytes : List UInt8) {tail : List UInt8} (hp : Parts mk fst snd) (target : β)
    (hf : f.Leaks (bytes ++ tail)) (hg : ∀ y done, ∃ w,
      g y ⟨done, bytes ++ tail⟩ = .ok (w, ⟨done ++ bytes, tail⟩)) :
    (andThen f g mk fst snd).Leaks tail := by
  obtain ⟨bytes₁, x, y, hleak⟩ := hf
  refine ⟨bytes₁ ++ bytes, mk x target, mk y target, fun done => ?_⟩
  obtain ⟨v, w, hne, hx, hy⟩ := hleak done
  obtain ⟨u, hu⟩ := hg target (done ++ bytes₁)
  rw [← List.append_assoc, List.append_assoc bytes₁]
  refine ⟨mk v u, mk w u, fun heq => hne ?_, ?_, ?_⟩
  · rw [← hp.fst_mk v u, heq, hp.fst_mk]
  · exact andThen_ok (by rw [hp.fst_mk]; exact hx) (by rw [hp.snd_mk]; exact hu)
  · exact andThen_ok (by rw [hp.fst_mk]; exact hy) (by rw [hp.snd_mk]; exact hu)

/-- A difference in the second part. -/
theorem Leaks.andThen_right {bytes tail : List UInt8} (hp : Parts mk fst snd) (target : α)
    (hf : f.Reads bytes) (hg : g.Leaks tail) : (andThen f g mk fst snd).Leaks tail := by
  obtain ⟨bytes₂, x, y, hleak⟩ := hg
  refine ⟨bytes ++ bytes₂, mk target x, mk target y, fun done => ?_⟩
  obtain ⟨u, hu⟩ := hf target done (bytes₂ ++ tail)
  obtain ⟨v, w, hne, hx, hy⟩ := hleak (done ++ bytes)
  rw [← List.append_assoc, List.append_assoc bytes]
  refine ⟨mk u v, mk u w, fun heq => hne ?_, ?_, ?_⟩
  · rw [← hp.snd_mk u v, heq, hp.snd_mk]
  · exact andThen_ok (by rw [hp.fst_mk]; exact hu) (by rw [hp.snd_mk]; exact hx)
  · exact andThen_ok (by rw [hp.fst_mk]; exact hu) (by rw [hp.snd_mk]; exact hy)

/-- No difference in the two parts, or the second cannot be read behind one. -/
theorem Settles.andThen {P Q : Datastream → Prop} (hob : f.Oblivious) (hf : f.Settles P)
    (hbehind : ∀ y w ds ds', P ds → g y ds = .ok (w, ds') → Q ds') (hg : g.Settles Q) :
    (andThen f g mk fst snd).Settles Q := by
  intro t u v w ds ds' ht hu
  obtain ⟨x, y, ds₁, rfl, hx, hy⟩ := andThen_inv ht
  obtain ⟨x', y', ds₂, rfl, hx', hy'⟩ := andThen_inv hu
  obtain rfl : ds₁ = ds₂ := hob.end_eq hx hx'
  rcases hf _ _ _ _ _ _ hx hx' with rfl | hP
  · rcases hg _ _ _ _ _ _ hy hy' with rfl | hQ
    · exact .inl rfl
    · exact .inr hQ
  · exact .inr (hbehind _ _ _ _ hP hy)

end Reader

/-- **Two parts**, each read in place. -/
theorem Profile.andThen {f : Reader α} {g : Reader β} {mk : α → β → γ} {fst : γ → α} {snd : γ → β}
    {n b k n' b' k' : Bool} (hp : Reader.Parts mk fst snd) (hf : Profile f n b k)
    (hg : Profile g n' b' k') :
    Profile (Reader.andThen f g mk fst snd) (n && n') (b || b') (b || k && n' || k') := by
  obtain ⟨x₀⟩ := hf.target
  obtain ⟨y₀⟩ := hg.target
  obtain ⟨bytes, hreads⟩ := hf.reads
  obtain ⟨bytes', hreads'⟩ := hg.reads
  refine ⟨⟨mk x₀ y₀⟩, hf.oblivious.andThen hg.oblivious, ⟨_, hreads.andThen hreads'⟩, ?_, ?_, ?_⟩
  · intro t done
    have hleft := hf.nothing (fst t) done
    have hright := hg.nothing (snd t) done
    cases n with
    | false =>
      obtain ⟨e, he⟩ := hleft
      exact ⟨e, Reader.andThen_error_left he⟩
    | true =>
      obtain ⟨v, hv⟩ := hleft
      cases n' with
      | false =>
        obtain ⟨e, he⟩ := hright
        exact ⟨e, Reader.andThen_error_right hv he⟩
      | true =>
        obtain ⟨w, hw⟩ := hright
        exact ⟨mk v w, Reader.andThen_ok hv hw⟩
  · cases b with
    | true => exact fun tail => (hf.before _).andThen_left _ hp y₀ fun y done => hreads' y done tail
    | false =>
      cases b' with
      | true => exact fun tail => (hg.before tail).andThen_right hp x₀ hreads
      | false => exact hf.before.andThen hf.oblivious (fun _ _ _ _ => hg.atEnd) hg.before
  · cases b with
    | true => exact (hf.before _).andThen_left _ hp y₀ fun y done => hreads' y done []
    | false =>
      cases k' with
      | true =>
        rw [Bool.or_true]
        exact hg.keeps.andThen_right hp x₀ hreads
      | false =>
        cases k with
        | false =>
          exact hf.keeps.andThen hf.oblivious (fun _ _ _ _ h _ => h.elim) hg.keeps
        | true =>
          cases n' with
          | true =>
            refine Reader.Leaks.andThen_left [] hp y₀ hf.keeps fun y done => ?_
            obtain ⟨w, hw⟩ := hg.nothing y done
            exact ⟨w, by simpa using hw⟩
          | false =>
            -- behind a difference the stream has ended, and the second part fails
            refine hf.before.andThen hf.oblivious (fun y w ds ds' hend hread => ?_) hg.keeps
            obtain ⟨done, rest⟩ := ds
            obtain rfl : rest = [] := hend
            obtain ⟨e, he⟩ := hg.nothing y done
            rw [he] at hread
            cases hread

/-! ## Behind a size -/

theorem readUnsigned_atEnd (done : List UInt8) :
    readUnsigned ⟨done, []⟩ = .error (.abort "get") := rfl

namespace Profile

variable {f : Reader α} {n b k : Bool}

/-- Bytes in front that do not look at the target, and cannot be read where the stream has ended. -/
theorem prefixed {p : Datastream → Exec Datastream} {d : List UInt8}
    (hp : ∀ done tail, p ⟨done, d ++ tail⟩ = .ok ⟨done ++ d, tail⟩)
    (herr : ∀ done, ∃ e, p ⟨done, []⟩ = .error e) (h : Profile f n b k) :
    Profile (fun x ds => p ds >>= f x) false b k := by
  obtain ⟨bytes, hreads⟩ := h.reads
  have leaks : ∀ {tail}, f.Leaks tail → Reader.Leaks (fun x ds => p ds >>= f x) tail := by
    rintro tail ⟨bytes, x, y, hleak⟩
    refine ⟨d ++ bytes, x, y, fun done => ?_⟩
    simp only [List.append_assoc, hp, ok_bind]
    simpa only [List.append_assoc] using hleak (done ++ d)
  have settles : ∀ {P}, f.Settles P → Reader.Settles (fun x ds => p ds >>= f x) P := by
    intro P hf x y v w ds ds' hx hy
    obtain ⟨ds₁, hds, hx⟩ := bind_eq_ok hx
    simp only [hds, ok_bind] at hy
    exact hf x y v w ds₁ ds' hx hy
  refine ⟨h.target, fun x y ds => ?_, ⟨d ++ bytes, fun x done tail => ?_⟩, fun x done => ?_, ?_, ?_⟩
  · cases hds : p ds with
    | error e => exact .inl ⟨e, rfl, rfl⟩
    | ok ds₁ => exact h.oblivious x y ds₁
  · simp only [List.append_assoc, hp, ok_bind]
    simpa only [List.append_assoc] using hreads x (done ++ d) tail
  · obtain ⟨e, he⟩ := herr done
    exact ⟨e, by rw [he, error_bind]⟩
  · cases b with
    | true => exact fun tail => leaks (h.before tail)
    | false => exact settles h.before
  · cases k with
    | true => exact leaks h.keeps
    | false => exact settles h.keeps

/-- The elements of an array. -/
theorem each {c : Serial α} (h : Profile c.read n b k) : ∀ m : Nat,
    Profile (readEach c (n := m)) (m == 0 || n) (m != 0 && b) (m != 0 && k)
  | 0 => by
    refine fresh [] .nil (fun x y => ?_) (fun x done tail => ⟨x, ?_⟩) fun done => ?_
    · rw [x.eq_nil, y.eq_nil]
    · rw [List.nil_append, List.append_nil]
      rfl
    · exact ⟨.nil, rfl⟩
  | m + 1 => by
    have hsplit : readEach c (n := m + 1) =
        Reader.andThen c.read (readEach c (n := m)) List.Vector.cons List.Vector.head
          List.Vector.tail := by
      funext v ds
      obtain ⟨x, v, rfl⟩ := v.exists_eq_cons
      rfl
    have hk : b = true → k = true := by
      rintro rfl
      exact h.keeps_of_before
    have hboth := h.andThen ⟨List.Vector.head_cons, List.Vector.tail_cons⟩ (h.each m)
    rw [hsplit]
    convert hboth using 1
    · cases n <;> simp
    · cases b <;> simp
    · cases b <;> cases n <;> cases k <;> simp at hk ⊢
      exact Classical.em _

/-- An object that is turned into the target of another overload, and back. -/
theorem via {g : Reader β} {into : α → β} {out : β → α} (h : Profile g n b k)
    (hinto : ∀ y, ∃ x, into x = y) (hout : ∀ v w, out v = out w → v = w) :
    Profile (fun x ds => g (into x) ds >>= fun r => pure (out r.1, r.2)) n b k := by
  obtain ⟨bytes, hreads⟩ := h.reads
  obtain ⟨y₀⟩ := h.target
  have leaks : ∀ {tail}, g.Leaks tail →
      Reader.Leaks (fun x ds => g (into x) ds >>= fun r => pure (out r.1, r.2)) tail := by
    rintro tail ⟨bytes, y, y', hleak⟩
    obtain ⟨x, rfl⟩ := hinto y
    obtain ⟨x', rfl⟩ := hinto y'
    refine ⟨bytes, x, x', fun done => ?_⟩
    obtain ⟨v, w, hne, hv, hw⟩ := hleak done
    exact ⟨out v, out w, fun heq => hne (hout v w heq), by simp only [hv, ok_bind, pure_eq_ok],
      by simp only [hw, ok_bind, pure_eq_ok]⟩
  have settles : ∀ {P}, g.Settles P →
      Reader.Settles (fun x ds => g (into x) ds >>= fun r => pure (out r.1, r.2)) P := by
    intro P hg x y v w ds ds' hx hy
    obtain ⟨⟨v', ds₁⟩, hv, hx⟩ := bind_eq_ok hx
    obtain ⟨⟨w', ds₂⟩, hw, hy⟩ := bind_eq_ok hy
    cases hx
    cases hy
    rcases hg _ _ _ _ _ _ hv hw with rfl | hP
    · exact .inl rfl
    · exact .inr hP
  refine ⟨⟨out y₀⟩, fun x y ds => ?_, ⟨bytes, fun x done tail => ?_⟩, fun x done => ?_, ?_, ?_⟩
  · rcases h.oblivious (into x) (into y) ds with ⟨e, hx, hy⟩ | ⟨v, w, ds', hx, hy⟩
    · exact .inl ⟨e, by rw [hx, error_bind], by rw [hy, error_bind]⟩
    · exact .inr ⟨out v, out w, ds', by rw [hx]; rfl, by rw [hy]; rfl⟩
  · obtain ⟨v, hv⟩ := hreads (into x) done tail
    exact ⟨out v, by simp only [hv, ok_bind, pure_eq_ok]⟩
  · have hnothing := h.nothing (into x) done
    cases n with
    | true =>
      obtain ⟨v, hv⟩ := hnothing
      exact ⟨out v, by rw [hv]; rfl⟩
    | false =>
      obtain ⟨e, he⟩ := hnothing
      exact ⟨e, by rw [he, error_bind]⟩
  · cases b with
    | true => exact fun tail => leaks (h.before tail)
    | false => exact settles h.before
  · cases k with
    | true => exact leaks h.keeps
    | false => exact settles h.keeps

/-- A size, and what is then read of that size, which keeps nothing if the size is zero. -/
theorem sized {F : Nat → Reader α}
    (h : ∀ m, Profile (F m) (m == 0 || n) (m != 0 && b) (m != 0 && k)) :
    Profile (fun x ds => readUnsigned ds >>= fun r => F r.1.toNat x r.2) false b k := by
  have hone : 1 < 2 ^ 32 := by decide
  obtain ⟨bytes, hreads⟩ := (h 1).reads
  have leaks : ∀ {tail}, (F 1).Leaks tail →
      Reader.Leaks (fun x ds => readUnsigned ds >>= fun r => F r.1.toNat x r.2) tail := by
    rintro tail ⟨bytes, x, y, hleak⟩
    refine ⟨Format.sizePrefix 1 ++ bytes, x, y, fun done => ?_⟩
    simp only [List.append_assoc, readSize_eq hone, ok_bind, toNat_size hone]
    simpa only [List.append_assoc] using hleak (done ++ Format.sizePrefix 1)
  have settles : ∀ {P}, (∀ m, (F m).Settles P) →
      Reader.Settles (fun x ds => readUnsigned ds >>= fun r => F r.1.toNat x r.2) P := by
    intro P hF x y v w ds ds' hx hy
    obtain ⟨r, hds, hx⟩ := bind_eq_ok hx
    simp only [hds, ok_bind] at hy
    exact hF _ x y v w _ ds' hx hy
  refine ⟨(h 0).target, fun x y ds => ?_, ⟨Format.sizePrefix 1 ++ bytes, fun x done tail => ?_⟩,
    fun x done => ?_, ?_, ?_⟩
  · cases hds : readUnsigned ds with
    | error e => exact .inl ⟨e, rfl, rfl⟩
    | ok r => exact (h r.1.toNat).oblivious x y r.2
  · simp only [List.append_assoc, readSize_eq hone, ok_bind, toNat_size hone]
    simpa only [List.append_assoc] using hreads x (done ++ Format.sizePrefix 1) tail
  · exact ⟨_, by rw [readUnsigned_atEnd, error_bind]⟩
  · cases b with
    | true => exact fun tail => leaks ((h 1).before tail)
    | false => exact settles fun m => by simpa using (h m).before
  · cases k with
    | true => exact leaks (h 1).keeps
    | false => exact settles fun m => by simpa using (h m).keeps

/-- A vector, a list or a deque: the elements are read in place. -/
theorem sequence {c : Serial α} (h : Profile c.read n b k) :
    Profile (Serial.sequence c).read false b k := by
  refine sized (n := n) (F := fun m x ds =>
    readEach c (resize c.make m x) ds >>= fun r => pure (r.1.toList, r.2)) fun m => ?_
  exact (h.each m).via (fun y => ⟨y.toList, Implements.resize_toList c.make y⟩)
    fun v w heq => List.Vector.toList_injective heq

theorem cArrayEach {c : Serial α} (h : Profile c.read n b k) {m : Nat} (hm : m < 2 ^ 32) :
    Profile (Serial.cArrayEach c m).read false (m != 0 && b) (m != 0 && k) := by
  have hread : (Serial.cArrayEach c m).read = fun x ds => (readUnsigned ds >>= fun r =>
      check (m == r.1.toNat) "T[] size and unpacked size don't match" >>= fun _ => pure r.2) >>=
        readEach c x := by
    funext x ds
    simp only [Serial.cArrayEach, bind_assoc, pure_bind]
  rw [hread]
  refine (h.each m).prefixed (d := Format.sizePrefix m) (fun done tail => ?_) fun done => ?_
  · simp only [readSize_eq hm, ok_bind, Implements.check_size hm, check_bind, ↓reduceIte,
      pure_eq_ok]
  · exact ⟨_, by rw [readUnsigned_atEnd, error_bind]⟩

/-! ## Fresh objects -/

theorem reads_of_implements {c : Serial α} {fmt : Format α} (h : Implements c fmt) {v : α}
    (hb : fmt.Bounded v) (hfit : ∀ t, fmt.Fits t v) : Reader.Reads c.read (fmt.bytes v) :=
  fun x done tail => ⟨v, h.read hb (hfit x) done tail⟩

/-- What is read from no bytes is read at the end of the stream. -/
theorem nothing_of_reads (h : f.Reads []) (x : α) (done : List UInt8) :
    ∃ v, f x ⟨done, []⟩ = .ok (v, ⟨done, []⟩) := by
  obtain ⟨v, hv⟩ := h x done []
  rw [List.append_nil, List.append_nil] at hv
  exact ⟨v, hv⟩

theorem int (m : Nat) : Profile (Serial.int m).read (m == 0) false false := by
  have hreads : Reader.Reads (Serial.int m).read (littleEndian m (0#(8 * m)).toNat) :=
    reads_of_implements (Implements.int m) trivial fun _ => trivial
  refine fresh _ (0#(8 * m)) (fun _ _ => rfl) hreads fun done => ?_
  cases m with
  | zero => exact nothing_of_reads hreads _ done
  | succ m => exact ⟨_, rfl⟩

theorem bool : Profile Serial.bool.read false false false :=
  fresh _ false (fun _ _ => rfl)
    (reads_of_implements Implements.bool (v := false) trivial fun _ => trivial) fun _ => ⟨_, rfl⟩

theorem unsignedInt : Profile Serial.unsignedInt.read false false false :=
  fresh _ 0 (fun _ _ => rfl)
    (reads_of_implements Implements.unsignedInt (v := 0) trivial fun _ => trivial) fun _ => ⟨_, rfl⟩

theorem signedInt : Profile Serial.signedInt.read false false false :=
  fresh _ 0 (fun _ _ => rfl)
    (reads_of_implements Implements.signedInt (v := 0) trivial fun _ => trivial) fun _ => ⟨_, rfl⟩

theorem string : Profile Serial.string.read false false false :=
  fresh _ [] (fun _ _ => rfl)
    (reads_of_implements Implements.string (v := []) (by simp [Format.block]) fun _ => trivial)
    fun _ => ⟨_, rfl⟩

theorem charVector : Profile Serial.charVector.read false false false :=
  fresh _ [] (fun _ _ => rfl)
    (reads_of_implements Implements.charVector (v := []) (by simp [Format.block]) fun _ => trivial)
    fun _ => ⟨_, rfl⟩

theorem set {c : Serial α} (cmp : Comparator α) : Profile (Serial.set c cmp).read false false false := by
  refine fresh (Format.sizePrefix 0) .empty (fun _ _ => rfl) (fun x done tail => ⟨.empty, ?_⟩)
    fun _ => ⟨_, rfl⟩
  simp only [Serial.set, readSize_eq (n := 0) (by decide), ok_bind]
  rfl

theorem fixedBytes (size : Nat) : Profile (Serial.fixedBytes size).read (size == 0) false false := by
  have hreads : Reader.Reads (Serial.fixedBytes size).read (List.replicate size 0) := by
    intro x done tail
    refine ⟨.ofByteArray size (List.replicate size 0), ?_⟩
    simp only [Serial.fixedBytes, Datastream.read_append List.length_replicate, ok_bind, pure_eq_ok]
  refine fresh _ (.replicate _ 0) (fun _ _ => rfl) hreads fun done => ?_
  cases size with
  | zero => exact nothing_of_reads hreads _ done
  | succ size => exact ⟨_, rfl⟩

theorem cArrayBulk (p : Primitive α) {m : Nat} (hm : m < 2 ^ 32) :
    Profile (Serial.cArrayBulk p m).read false false false := by
  let zeros : List.Vector α m := .replicate m p.zero
  have hlen : (p.reprArray zeros.toList).length = m * p.size := by
    rw [Implements.reprArray_length, List.Vector.toList_length]
  refine fresh (Format.sizePrefix m ++ p.reprArray zeros.toList) zeros (fun _ _ => rfl)
    (fun x done tail => ⟨zeros, ?_⟩) fun _ => ⟨_, rfl⟩
  simp only [Serial.cArrayBulk, List.append_assoc, readSize_eq hm, ok_bind, check_bind,
    Implements.check_size hm, ↓reduceIte, Datastream.read_append hlen,
    Implements.ofReprArray_reprArray, pure_eq_ok]

/-- A pair, or an entry of a map: both parts are fresh objects. -/
theorem entry {a : Serial α} {c : Serial β} {n' b' k' : Bool} (ha : Profile a.read n b k)
    (hc : Profile c.read n' b' k') : Profile (Serial.entry a c).read (n && n') false false := by
  have hparts : Reader.Parts (Prod.mk : α → β → α × β) Prod.fst Prod.snd :=
    ⟨fun _ _ => rfl, fun _ _ => rfl⟩
  have hboth := ha.andThen hparts hc
  obtain ⟨bytes, hreads⟩ := hboth.reads
  have hnothing := hboth.nothing (a.make, c.make)
  exact fresh _ (a.make, c.make) (fun _ _ => rfl) (fun _ done tail => hreads (a.make, c.make) done tail)
    hnothing

theorem nil : Profile Serial.nil.read true false false :=
  fresh [] () (fun _ _ => rfl) (fun _ done tail => ⟨(), by
    rw [List.nil_append, List.append_nil]; rfl⟩) fun _ => ⟨(), rfl⟩

theorem cons {a : Serial α} {c : Serial β} {n' b' k' : Bool} (ha : Profile a.read n b k)
    (hc : Profile c.read n' b' k') :
    Profile (Serial.cons a c).read (n && n') (b || b') (b || k && n' || k') :=
  ha.andThen ⟨fun _ _ => rfl, fun _ _ => rfl⟩ hc

/-- The first alternative is read into a fresh object. -/
theorem variant {c : Serial α} {others : Alternatives σ} (h : Profile c.read n b k) :
    Profile (Serial.variant c others).read false false false := by
  have hzero : 0 < 2 ^ 32 := by decide
  obtain ⟨bytes, hreads⟩ := h.reads
  refine fresh (Format.sizePrefix 0 ++ bytes) (.inl c.make) (fun _ _ => rfl)
    (fun x done tail => ?_) fun _ => ⟨_, rfl⟩
  obtain ⟨v, hv⟩ := hreads c.make (done ++ Format.sizePrefix 0) tail
  refine ⟨.inl v, ?_⟩
  simp only [Serial.variant, List.append_assoc, readSize_eq hzero, ok_bind, toNat_size hzero,
    Alternatives.cons]
  rw [hv, List.append_assoc]
  rfl

/-! ## Optional objects -/

theorem readFlag (flag : BitVec (8 * 1)) (done tail : List UInt8) :
    (Serial.int 1).read 0 ⟨done, littleEndian 1 flag.toNat ++ tail⟩ =
      .ok (flag, ⟨done ++ littleEndian 1 flag.toNat, tail⟩) := Serial.int_read _ _ done tail

theorem optional {c : Serial α} : Profile (Serial.optional c).read false true true := by
  have absent : ∀ x done tail, (Serial.optional c).read x
      ⟨done, littleEndian 1 (0 : BitVec (8 * 1)).toNat ++ tail⟩ =
        .ok (x, ⟨done ++ littleEndian 1 (0 : BitVec (8 * 1)).toNat, tail⟩) := by
    intro x done tail
    simp only [Serial.optional, readFlag, ok_bind, ne_eq, not_true_eq_false, ↓reduceIte, pure_eq_ok]
  have leaks : ∀ tail, Reader.Leaks (Serial.optional c).read tail := fun tail =>
    ⟨_, none, some c.make, fun done => ⟨none, some c.make, (Option.some_ne_none _).symm,
      absent _ done tail, absent _ done tail⟩⟩
  refine ⟨⟨none⟩, fun x y ds => ?_, ⟨_, fun x done tail => ⟨x, absent x done tail⟩⟩,
    fun x done => ⟨_, rfl⟩, leaks, leaks []⟩
  simp only [Serial.optional]
  cases (Serial.int 1).read 0 ds with
  | error e => exact .inl ⟨e, rfl, rfl⟩
  | ok r =>
    by_cases hflag : r.1 = 0
    · refine .inr ⟨x, y, r.2, ?_, ?_⟩ <;> simp only [ok_bind, hflag, ne_eq, not_true_eq_false,
        ↓reduceIte, pure_eq_ok]
    · cases hval : c.read c.make r.2 with
      | error e =>
        refine .inl ⟨e, ?_, ?_⟩ <;> simp only [ok_bind, hflag, ne_eq, not_false_eq_true, ↓reduceIte,
          hval, error_bind]
      | ok r' =>
        refine .inr ⟨some r'.1, some r'.1, r'.2, ?_, ?_⟩ <;> simp only [ok_bind, hflag, ne_eq,
          not_false_eq_true, ↓reduceIte, hval, pure_eq_ok]

theorem binaryExtension {c : Serial α} (h : Profile c.read n b k) :
    Profile (Serial.binaryExtension c).read true false true := by
  obtain ⟨bytes, hreads⟩ := h.reads
  have atEnd : ∀ x done, (Serial.binaryExtension c).read x ⟨done, []⟩ = .ok (x, ⟨done, []⟩) :=
    fun _ _ => rfl
  have notAtEnd : ∀ (x : Option α) {ds : Datastream}, ds.rest.length ≠ 0 →
      (Serial.binaryExtension c).read x ds =
        (c.read c.make ds >>= fun r => pure (some r.1, r.2)) := by
    intro x ds hrest
    simp only [Serial.binaryExtension, hrest, ne_eq, not_false_eq_true, ↓reduceIte]
  refine ⟨⟨none⟩, fun x y ds => ?_, ⟨bytes, fun x done tail => ?_⟩, fun x done => ⟨x, atEnd x done⟩,
    fun x y v w ds ds' hx hy => ?_, ?_⟩
  · by_cases hrest : ds.rest.length = 0
    · obtain ⟨done, rest⟩ := ds
      obtain rfl : rest = [] := List.length_eq_zero_iff.1 hrest
      exact .inr ⟨x, y, _, atEnd x done, atEnd y done⟩
    · rw [notAtEnd x hrest, notAtEnd y hrest]
      cases c.read c.make ds with
      | error e => exact .inl ⟨e, rfl, rfl⟩
      | ok r => exact .inr ⟨some r.1, some r.1, r.2, rfl, rfl⟩
  · by_cases hrest : (bytes ++ tail).length = 0
    · obtain ⟨rfl, rfl⟩ := List.append_eq_nil_iff.1 (List.length_eq_zero_iff.1 hrest)
      exact ⟨x, by simpa only [List.append_nil] using atEnd x done⟩
    · obtain ⟨v, hv⟩ := hreads c.make done tail
      exact ⟨some v, by rw [notAtEnd x hrest, hv]; rfl⟩
  · by_cases hrest : ds.rest.length = 0
    · obtain ⟨done, rest⟩ := ds
      obtain rfl : rest = [] := List.length_eq_zero_iff.1 hrest
      rw [atEnd] at hx
      cases hx
      exact .inr rfl
    · rw [notAtEnd x hrest] at hx
      rw [notAtEnd y hrest, hx] at hy
      cases hy
      exact .inl rfl
  · refine ⟨[], none, some c.make, fun done => ⟨none, some c.make, nofun, ?_, ?_⟩⟩
    · simpa only [List.append_nil] using atEnd none done
    · simpa only [List.append_nil] using atEnd (some c.make) done

end Profile

/-! ## Types -/

mutual

/-- The overloads of a type have the profile of its form. -/
theorem StreamTy.profile {α : Type} : ∀ t : StreamTy α,
    Profile t.serial.read t.readsNothing t.keepsBefore t.keeps
  | .int n => .int n
  | .bool => .bool
  | .unsignedInt => .unsignedInt
  | .signedInt => .signedInt
  | .string => .string
  | .charVector => .charVector
  | .vector t => .sequence t.profile
  | .list t => .sequence t.profile
  | .deque t => .sequence t.profile
  | .set _ cmp => .set cmp
  | .map _ _ cmp => .set cmp.onKey
  | .optional _ => .optional
  | .binaryExtension t => .binaryExtension t.profile
  | .pair a b => .entry a.profile b.profile
  | .tuple ts => ts.profile
  | .array t n => .each t.profile n
  | .cArray t n h => by
    have hp : ∀ p, t.primitive? = some p → t.keepsBefore = false ∧ t.keeps = false := by
      intro p hp
      cases t <;> first | exact ⟨rfl, rfl⟩ | cases hp
    cases hprim : t.primitive? with
    | some p =>
      obtain ⟨hbefore, hkeeps⟩ := hp p hprim
      have hserial : (StreamTy.cArray t n h).serial = .cArrayBulk p n := by
        simp only [StreamTy.serial, hprim]
      rw [hserial, StreamTy.keepsBefore, StreamTy.keeps, hbefore, hkeeps, Bool.and_false]
      exact .cArrayBulk p h
    | none =>
      have hserial : (StreamTy.cArray t n h).serial = .cArrayEach t.serial n := by
        simp only [StreamTy.serial, hprim]
      rw [hserial]
      exact .cArrayEach t.profile h
  | .variant t _ => .variant t.profile
  | .fixedBytes size => .fixedBytes size
  | .struct members _ => members.profile

theorem StreamTypes.profile {ρ σ : Type} : ∀ ts : StreamTypes ρ σ,
    Profile ts.elements.read ts.readNothing ts.keepBefore ts.keep
  | .nil => .nil
  | .cons t ts => .cons t.profile ts.profile

end

/-- **Reading forgets the target exactly when the type keeps nothing.** -/
theorem StreamTy.fresh_iff (t : StreamTy α) : t.serial.Fresh ↔ t.keeps = false := by
  have hkeeps := t.profile.keeps
  constructor
  · intro hfresh
    cases hk : t.keeps with
    | false => rfl
    | true =>
      rw [hk] at hkeeps
      obtain ⟨bytes, x, y, hleak⟩ := hkeeps
      obtain ⟨v, w, hne, hx, hy⟩ := hleak []
      exact absurd (hfresh x y v w _ _ _ hx hy) hne
  · intro hk x y v w ds ds₁ ds₂ hx hy
    rw [hk] at hkeeps
    obtain rfl := t.profile.oblivious.end_eq hx hy
    rcases hkeeps x y v w ds ds₁ hx hy with heq | hnever
    · exact heq
    · exact hnever.elim

/-- A structure with a number and an optional, and one with an extension behind the number. -/
def optionalMember : StreamTy (BitVec (8 * 1) × Option (BitVec (8 * 1)) × Unit) :=
  .struct (.cons (.int 1) (.cons (.optional (.int 1)) .nil)) (0, none, ())

def extensionMember : StreamTy (BitVec (8 * 1) × Option (BitVec (8 * 1)) × Unit) :=
  .struct (.cons (.int 1) (.cons (.binaryExtension (.int 1)) .nil)) (0, none, ())

/-- The bytes `7, 0` and the byte `7`, read over objects with a second member and without. -/
theorem not_fresh : ¬optionalMember.serial.Fresh ∧ ¬extensionMember.serial.Fresh := by
  constructor
  · intro h
    have heq := h (1, none, ()) (1, some 5, ()) (7, none, ()) (7, some 5, ()) (.start [7, 0])
      ⟨[7, 0], []⟩ ⟨[7, 0], []⟩ (by rfl) (by rfl)
    exact absurd heq (by decide)
  · intro h
    have heq := h (1, none, ()) (1, some 5, ()) (7, none, ()) (7, some 5, ()) (.start [7])
      ⟨[7], []⟩ ⟨[7], []⟩ (by rfl) (by rfl)
    exact absurd heq (by decide)

end Wasmlib
