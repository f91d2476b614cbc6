import WasmCdt.Core.Proof.AssetParse

/-!
# Blanks and tabs around a text

`trim` returns its argument, so that `from_string` of a symbol and of an asset find what is around a text.

* `ltrim_rtrim_padded`: what `trim` evaluates, and drops, does not depend on what is around.
* `Symbol.fromString_eq_ok_iff`, `fromString_eq_ok_iff`: the texts that are read, and as what.
* `padding_iff`: **exactly when a padded text is read like the text.**
-/

namespace Wasmlib

open Asset

/-- A text of blanks and tabs. -/
def IsPadding (w : Text) : Prop := ∀ c ∈ w, isPadding c = true

/-- The same result, or neither has one. -/
def SameOutcome {α : Type} (x y : Exec α) : Prop := ∀ a, x = .ok a ↔ y = .ok a

/-- The numbers are right and the code is not empty: the two sides of a blank are an asset. -/
structure Accepted (amt code : Text) : Prop where
  reads : Reads amt code
  code_ne : code ≠ []
  amount : |wrappedAmount amt| ≤ maxAmount

/-- The text of an asset, cut at its first blank. -/
def IsAssetText (s : Text) : Prop :=
  ∃ amt code, s = amt ++ ' ' :: code ∧ ' ' ∉ amt ∧ Accepted amt code

/-- The text of a symbol, cut at its first comma. -/
def IsSymbolPair (s : Text) : Prop :=
  ∃ a b, s = a ++ ',' :: b ∧ ',' ∉ a ∧ (BitVec.ofInt 8 (Text.atoi a)).toNat ≤ maxPrecision ∧
    b.length ≤ 7 ∧ ∀ c ∈ b, validCharacterInSymbolName c = true

/-- Tabs before the number do not matter: they do not hide its sign, and are not counted. -/
def Unseen (w amt : Text) : Prop :=
  if '.' ∈ amt then
    w = [] ∨ amt.head? ≠ some '-' ∨ Text.int32 (Text.leadingInt (afterPoint amt)) = 0
  else w.length % 256 = 0

/-- Neither text is that of an asset; or there are only tabs before the text, which do not matter, and
nothing behind it. -/
def AssetUnmoved (w₁ s w₂ : Text) : Prop :=
  ¬IsAssetText s ∧ ¬IsAssetText (w₁ ++ s ++ w₂) ∨
    w₂ = [] ∧ ' ' ∉ w₁ ∧ ∃ amt code, s = amt ++ ' ' :: code ∧ ' ' ∉ amt ∧ Accepted amt code ∧
      Unseen w₁ amt

section

variable {w w₁ w₂ s a b amt code : Text} {c : Char}

theorem IsPadding.isSpace (h : IsPadding w) : ∀ c ∈ w, Text.isSpace c = true := by
  intro c hc
  have hpad := h c hc
  simp only [isPadding, Bool.or_eq_true, beq_iff_eq] at hpad
  rcases hpad with rfl | rfl <;> decide

theorem IsPadding.not_mem (h : IsPadding w) (hc : isPadding c = false) : c ∉ w := fun hmem => by
  rw [h c hmem] at hc
  cases hc

/-- No character of a code is padding. -/
theorem not_padding (h : validCharacterInSymbolName c = true) : isPadding c = false := by
  cases hpad : isPadding c with
  | false => rfl
  | true =>
    simp only [isPadding, Bool.or_eq_true, beq_iff_eq] at hpad
    rcases hpad with rfl | rfl <;> cases h

theorem eq_nil_of_valid (hw : IsPadding w)
    (h : ∀ c ∈ b ++ w, validCharacterInSymbolName c = true) : w = [] := by
  refine List.eq_nil_iff_forall_not_mem.2 fun c hc => ?_
  exact hw.not_mem (not_padding (h c (List.mem_append_right b hc))) hc

/-! ## What `trim` drops -/

theorem rtrim_append (hw : IsPadding w) (s : Text) : rtrim (s ++ w) = rtrim s := by
  have hrev : ∀ c ∈ w.reverse, isPadding c = true := fun c hc => hw c (List.mem_reverse.1 hc)
  rw [rtrim, rtrim, List.rdropWhile, List.rdropWhile, List.reverse_append,
    List.dropWhile_append_of_pos hrev]

theorem ltrim_append (hw : IsPadding w) (s : Text) : ltrim (w ++ s) = ltrim s :=
  List.dropWhile_append_of_pos hw

/-- **What `ltrim(rtrim(str))` evaluates to** is the same for a padded text. -/
theorem ltrim_rtrim_padded (hw₁ : IsPadding w₁) (hw₂ : IsPadding w₂) (s : Text) :
    ltrim (rtrim (w₁ ++ s ++ w₂)) = ltrim (rtrim s) := by
  rw [rtrim_append hw₂]
  induction s using List.reverseRecOn with
  | nil =>
    rw [List.append_nil, ← List.nil_append w₁, rtrim_append hw₁]
  | append_singleton s c ih =>
    cases hc : isPadding c with
    | true =>
      have hlast : IsPadding [c] := by
        intro d hd
        rwa [List.mem_singleton.1 hd]
      rw [← List.append_assoc, rtrim_append hlast, rtrim_append hlast, ih]
    | false =>
      have hkeep : ∀ t : Text, rtrim (t ++ [c]) = t ++ [c] := fun t =>
        List.rdropWhile_concat_neg _ _ _ (by rw [hc]; exact Bool.false_ne_true)
      rw [← List.append_assoc, hkeep, hkeep, List.append_assoc, ltrim_append hw₁]

theorem trim_padded_iff : trim (w₁ ++ s ++ w₂) = trim s ↔ w₁ = [] ∧ w₂ = [] := by
  constructor
  · intro h
    have hlength := congrArg List.length h
    simp only [trim, List.length_append] at hlength
    exact ⟨List.length_eq_zero_iff.1 (by omega), List.length_eq_zero_iff.1 (by omega)⟩
  · rintro ⟨rfl, rfl⟩
    rw [List.nil_append, List.append_nil]

/-! ## Symbols -/

theorem leadingInt_padded (hw : IsPadding w) (s : Text) :
    Text.leadingInt (w ++ s) = Text.leadingInt s := by
  rw [Text.leadingInt, List.dropWhile_append_of_pos hw.isSpace, Text.leadingInt]

theorem atoi_padded (hw : IsPadding w) (s : Text) : Text.atoi (w ++ s) = Text.atoi s := by
  rw [Text.atoi_eq_leadingInt, leadingInt_padded hw, Text.atoi_eq_leadingInt]

/-- **What `symbol::from_string` reads**: a precision in eight bits, a comma, a code. -/
theorem Symbol.fromString_eq_ok_iff {sym : Symbol} : Symbol.fromString s = .ok sym ↔
    ∃ a b, s = a ++ ',' :: b ∧ ',' ∉ a ∧
      Symbol.ofText b (BitVec.ofInt 8 (Text.atoi a)) = .ok sym := by
  by_cases hcomma : ',' ∈ s
  · obtain ⟨a, b, rfl, ha⟩ := exists_split hcomma
    have hfind : Text.find (a ++ ',' :: b) ',' = some a.length := Text.find_append ha b
    have hne : a ++ ',' :: b ≠ [] := by simp
    have heq : Symbol.fromString (a ++ ',' :: b) =
        if decide ((BitVec.ofInt 8 (Text.atoi a)).toNat ≤ maxPrecision) = true then
          Symbol.ofText b (BitVec.ofInt 8 (Text.atoi a))
        else .error (.abort "precision should be <= 18") := by
      simp only [Symbol.fromString, trim, hfind, hne, Option.getD_some, Option.isSome_some,
        Text.substr_append, Text.drop_append_cons, check_bind, ne_eq, not_false_eq_true, decide_true,
        if_true]
    rw [heq]
    constructor
    · intro h
      split_ifs at h
      exact ⟨a, b, rfl, ha, h⟩
    · rintro ⟨a', b', hsplit, ha', h⟩
      obtain ⟨rfl, rfl⟩ := split_unique ha ha' hsplit
      obtain ⟨-, hp, -⟩ := Symbol.ofText_eq_ok_iff.1 h
      rw [if_pos (decide_eq_true (show _ ≤ maxPrecision from hp)), h]
  · have hfind : Text.find s ',' = none := Text.find_eq_none hcomma
    refine iff_of_false (fun h => ?_) ?_
    · simp only [Symbol.fromString, trim, hfind, check_bind, Option.isSome_none, Bool.false_eq_true,
        if_false] at h
      split_ifs at h
    · rintro ⟨a, b, rfl, -⟩
      exact hcomma (by simp)

theorem isSymbolPair_iff : IsSymbolPair s ↔ ∃ sym, Symbol.fromString s = .ok sym := by
  constructor
  · rintro ⟨a, b, rfl, ha, hp, hlen, hchars⟩
    have hcode := SymbolCode.ofText_eq_ok_iff.2 ⟨hlen, hchars, rfl⟩
    refine ⟨⟨(BitVec.ofNat 64 (symbolEncoding b) <<< 8) |||
      (BitVec.ofInt 8 (Text.atoi a)).setWidth 64⟩, Symbol.fromString_eq_ok_iff.2 ⟨a, b, rfl, ha, ?_⟩⟩
    rw [Symbol.ofText, hcode, ok_bind, check_bind, if_pos (decide_eq_true hp)]
    rfl
  · rintro ⟨sym, h⟩
    obtain ⟨a, b, rfl, ha, hof⟩ := Symbol.fromString_eq_ok_iff.1 h
    obtain ⟨hcode, hp, -⟩ := Symbol.ofText_eq_ok_iff.1 hof
    obtain ⟨hlen, hchars, -⟩ := SymbolCode.ofText_eq_ok_iff.1 hcode
    exact ⟨a, b, rfl, ha, hp, hlen, hchars⟩

/-- A comma that a padded text has is one of the text. -/
theorem padded_comma (hw₁ : IsPadding w₁) (hw₂ : IsPadding w₂) {a' b' : Text}
    (h : w₁ ++ s ++ w₂ = a' ++ ',' :: b') : ',' ∈ s := by
  have hmem : ',' ∈ w₁ ++ s ++ w₂ := by
    rw [h]
    simp
  have h₁ := hw₁.not_mem (c := ',') rfl
  have h₂ := hw₂.not_mem (c := ',') rfl
  simpa [h₁, h₂] using hmem

/-- The two sides of the first comma of a padded text. -/
theorem fromString_padded {sym : Symbol} (hw₁ : IsPadding w₁) (hw₂ : IsPadding w₂) :
    Symbol.fromString (w₁ ++ s ++ w₂) = .ok sym ↔
      ∃ a b, s = a ++ ',' :: b ∧ ',' ∉ a ∧
        Symbol.ofText (b ++ w₂) (BitVec.ofInt 8 (Text.atoi a)) = .ok sym := by
  rw [Symbol.fromString_eq_ok_iff]
  have hcut : ∀ {a b : Text}, w₁ ++ (a ++ ',' :: b) ++ w₂ = (w₁ ++ a) ++ ',' :: (b ++ w₂) := by
    intro a b
    simp only [List.append_assoc, List.cons_append]
  have hfree : ∀ {a : Text}, ',' ∉ a → ',' ∉ w₁ ++ a := fun ha =>
    List.not_mem_append (hw₁.not_mem rfl) ha
  constructor
  · rintro ⟨a', b', hsplit, ha', hof⟩
    obtain ⟨a, b, rfl, ha⟩ := exists_split (padded_comma hw₁ hw₂ hsplit)
    rw [hcut] at hsplit
    obtain ⟨rfl, rfl⟩ := split_unique (hfree ha) ha' hsplit
    rw [atoi_padded hw₁] at hof
    exact ⟨a, b, rfl, ha, hof⟩
  · rintro ⟨a, b, rfl, ha, hof⟩
    exact ⟨w₁ ++ a, b ++ w₂, hcut, hfree ha, by rwa [atoi_padded hw₁]⟩

/-- **A padded symbol** is read like the symbol exactly if nothing is behind it. -/
theorem symbol_padded_iff (hw₁ : IsPadding w₁) (hw₂ : IsPadding w₂) :
    SameOutcome (Symbol.fromString (w₁ ++ s ++ w₂)) (Symbol.fromString s) ↔
      w₂ = [] ∨ ¬IsSymbolPair s := by
  have hvalid : ∀ {sym : Symbol}, Symbol.fromString (w₁ ++ s ++ w₂) = .ok sym → w₂ = [] := by
    intro sym h
    obtain ⟨a, b, -, -, hof⟩ := (fromString_padded hw₁ hw₂).1 h
    obtain ⟨hcode, -, -⟩ := Symbol.ofText_eq_ok_iff.1 hof
    exact eq_nil_of_valid hw₂ (SymbolCode.ofText_eq_ok_iff.1 hcode).2.1
  have hsame : w₂ = [] → SameOutcome (Symbol.fromString (w₁ ++ s ++ w₂)) (Symbol.fromString s) := by
    rintro rfl sym
    rw [fromString_padded hw₁ hw₂, Symbol.fromString_eq_ok_iff]
    simp only [List.append_nil]
  constructor
  · intro h
    refine or_iff_not_imp_right.2 fun hpair => ?_
    obtain ⟨sym, hsym⟩ := isSymbolPair_iff.1 (not_not.1 hpair)
    exact hvalid ((h sym).2 hsym)
  · rintro (hnil | hpair)
    · exact hsame hnil
    · refine fun sym => iff_of_false (fun h => ?_) fun h => hpair (isSymbolPair_iff.2 ⟨sym, h⟩)
      have h' := (hsame (hvalid h) sym).1 h
      exact hpair (isSymbolPair_iff.2 ⟨sym, h'⟩)

/-! ## Assets -/

/-- A symbol is its code and its precision. -/
theorem Symbol.eq_of_code {sym sym' : Symbol} (hcode : sym.code = sym'.code)
    (hprec : sym.precision = sym'.precision) : sym = sym' := by
  have hp : (BitVec.ofNat 8 sym.precision).toNat = sym.precision := by
    rw [BitVec.toNat_ofNat, Nat.mod_eq_of_lt (precision_lt sym)]
  have h := Symbol.eq_of_precision hp
  rw [hcode, Symbol.eq_of_precision (hp.trans hprec)] at h
  exact h.symm

/-- What is accepted is read. -/
theorem Accepted.fromString (h : Accepted amt code) (hamt : ' ' ∉ amt) :
    ∃ r, Asset.fromString (amt ++ ' ' :: code) = .ok r ∧ r.amount.val = wrappedAmount amt ∧
      r.symbol.precision = precisionLength amt % 256 ∧ SymbolCode.ofText code = .ok r.symbol.code := by
  rcases fromString_cases hamt code with ⟨hrefused, -⟩ | ⟨-, hword, -⟩ | ⟨-, -, -, -, hread⟩
  · rcases hrefused with hnot | ⟨-, hlarge | hnil⟩
    · exact absurd h.reads hnot
    · exact absurd h.amount (not_le.2 hlarge)
    · exact absurd hnil h.code_ne
  · exact absurd (SInt.inRange_of_abs_le h.amount (by decide)) hword
  · exact hread

/-- **What `asset::from_string` reads.** -/
theorem fromString_eq_ok_iff {r : Asset} : Asset.fromString s = .ok r ↔
    ∃ amt code, s = amt ++ ' ' :: code ∧ ' ' ∉ amt ∧ Accepted amt code ∧
      r.amount.val = wrappedAmount amt ∧ r.symbol.precision = precisionLength amt % 256 ∧
      SymbolCode.ofText code = .ok r.symbol.code := by
  constructor
  · intro h
    by_cases hblank : ' ' ∈ s
    · obtain ⟨amt, code, rfl, hamt⟩ := exists_split hblank
      rcases fromString_cases hamt code with ⟨-, msg, habort⟩ | ⟨-, -, hfault⟩ |
        ⟨-, hreads, hne, hmax, r', hok, hval, hprec, hcode⟩
      · rw [habort] at h
        cases h
      · rw [hfault] at h
        cases h
      · obtain rfl : r' = r := Except.ok.inj (hok.symm.trans h)
        exact ⟨amt, code, rfl, hamt, ⟨hreads, hne, hmax⟩, hval, hprec, hcode⟩
    · have hfind : Text.find s ' ' = none := Text.find_eq_none hblank
      unfold Asset.fromString at h
      simp only [trim, hfind, check_bind, Option.isSome_none, Bool.false_eq_true, if_false] at h
      cases h
  · rintro ⟨amt, code, rfl, hamt, haccepted, hval, hprec, hcode⟩
    obtain ⟨r', hok, hval', hprec', hcode'⟩ := haccepted.fromString hamt
    have hamount := SInt.ext (hval'.trans hval.symm)
    have hsymbol := Symbol.eq_of_code (Except.ok.inj (hcode'.symm.trans hcode))
      (hprec'.trans hprec.symm)
    rw [hok, show r' = ⟨r'.amount, r'.symbol⟩ from rfl, hamount, hsymbol]

theorem isAssetText_iff : IsAssetText s ↔ ∃ r, Asset.fromString s = .ok r := by
  constructor
  · rintro ⟨amt, code, rfl, hamt, haccepted⟩
    obtain ⟨r, hok, -⟩ := haccepted.fromString hamt
    exact ⟨r, hok⟩
  · rintro ⟨r, h⟩
    obtain ⟨amt, code, hs, hamt, haccepted, -⟩ := fromString_eq_ok_iff.1 h
    exact ⟨amt, code, hs, hamt, haccepted⟩

theorem afterPoint_padded (hw : IsPadding w) : afterPoint (w ++ amt) = afterPoint amt := by
  have hpoint : ∀ c ∈ w, decide (c ≠ '.') = true := fun c hc => decide_eq_true fun he =>
    hw.not_mem (c := '.') rfl (he ▸ hc)
  rw [afterPoint, List.dropWhile_append_of_pos hpoint, afterPoint]

theorem beforePoint_padded (hw : IsPadding w) : beforePoint (w ++ amt) = w ++ beforePoint amt := by
  have hpoint : ∀ c ∈ w, decide (c ≠ '.') = true := fun c hc => decide_eq_true fun he =>
    hw.not_mem (c := '.') rfl (he ▸ hc)
  exact List.takeWhile_append_of_pos hpoint

theorem mem_padded (hw : IsPadding w) (hc : isPadding c = false) : c ∈ w ++ amt ↔ c ∈ amt := by
  rw [List.mem_append, or_iff_right (hw.not_mem hc)]

/-- Without a point, all characters are counted. -/
theorem precisionLength_padded (hw : IsPadding w) : precisionLength (w ++ amt) =
    if '.' ∈ amt then precisionLength amt else w.length + precisionLength amt := by
  simp only [precisionLength, mem_padded hw (c := '.') rfl, afterPoint_padded hw, List.length_append]
  split_ifs <;> rfl

/-- **Tabs before the number** do not matter exactly if they are unseen. -/
theorem unseen_iff (hw : IsPadding w) : Unseen w amt ↔
    wrappedAmount (w ++ amt) = wrappedAmount amt ∧
      precisionLength (w ++ amt) % 256 = precisionLength amt % 256 := by
  rcases List.eq_nil_or_concat w with rfl | ⟨u, c, hconcat⟩
  · refine iff_of_true ?_ ⟨rfl, rfl⟩
    unfold Unseen
    split_ifs
    · exact .inl rfl
    · rfl
  · have hne : w ≠ [] := by simp [hconcat]
    obtain ⟨d, v, rfl⟩ := List.exists_cons_of_ne_nil hne
    have hhead : (d :: v ++ amt).head? ≠ some '-' := by
      rw [List.cons_append, List.head?_cons, ne_eq, Option.some.injEq]
      rintro rfl
      exact absurd (hw '-' List.mem_cons_self) (by decide)
    simp only [wrappedAmount, precisionLength_padded hw, afterPoint_padded hw, beforePoint_padded hw,
      leadingInt_padded hw, hhead, if_false, Unseen, hne, false_or]
    by_cases hdot : '.' ∈ amt
    · simp only [hdot, if_true, add_right_inj, and_true]
      split_ifs with hminus
      · simp only [hminus, ne_eq, not_true_eq_false, false_or]
        omega
      · exact iff_of_true (.inl hminus) rfl
    · have hzero : Text.int32 (Text.leadingInt (afterPoint amt)) = 0 := by
        rw [(beforePoint_of_not_mem hdot).2]
        rfl
      simp only [hdot, if_false, hzero, neg_zero, ite_self, add_zero]
      constructor
      · intro hmod
        have hcount : ((d :: v).length + precisionLength amt) % 256 = precisionLength amt % 256 := by
          omega
        exact ⟨by rw [hcount], hcount⟩
      · rintro ⟨-, hcount⟩
        omega

/-- Unseen tabs before what is accepted. -/
theorem Accepted.padded (h : Accepted amt code) (hw : IsPadding w) (hunseen : Unseen w amt) :
    Accepted (w ++ amt) code := by
  obtain ⟨hamount, hcount⟩ := (unseen_iff hw).1 hunseen
  refine ⟨⟨fun hdot => ?_, h.reads.length, h.reads.chars, ?_⟩, h.code_ne, ?_⟩
  · rw [afterPoint_padded hw]
    exact h.reads.point ((mem_padded hw rfl).1 hdot)
  · rw [hcount]
    exact h.reads.precision
  · rw [hamount]
    exact h.amount

/-- Where a padded asset is cut, if it is an asset. -/
theorem accepted_padded (hw₁ : IsPadding w₁) (hw₂ : IsPadding w₂) (hamt : ' ' ∉ amt)
    (h : IsAssetText (w₁ ++ (amt ++ ' ' :: code) ++ w₂)) : w₂ = [] ∧ ' ' ∉ w₁ := by
  obtain ⟨amt', code', hsplit, hamt', ⟨hreads, -, -⟩⟩ := h
  have hfree : ' ' ∉ w₁ := by
    intro hmem
    obtain ⟨u, v, rfl, hu⟩ := exists_split hmem
    rw [List.append_assoc, List.append_assoc, List.cons_append] at hsplit
    obtain ⟨-, rfl⟩ := split_unique hu hamt' hsplit
    exact absurd (hreads.chars ' ' (by simp)) (by decide)
  have hcut : w₁ ++ (amt ++ ' ' :: code) ++ w₂ = (w₁ ++ amt) ++ ' ' :: (code ++ w₂) := by
    simp only [List.append_assoc, List.cons_append]
  have hfree' : ' ' ∉ w₁ ++ amt := List.not_mem_append hfree hamt
  rw [hcut] at hsplit
  obtain ⟨-, rfl⟩ := split_unique hfree' hamt' hsplit
  exact ⟨eq_nil_of_valid hw₂ hreads.chars, hfree⟩

/-- **A padded asset** is read like the asset. -/
theorem asset_padded_iff (hw₁ : IsPadding w₁) (hw₂ : IsPadding w₂) :
    SameOutcome (Asset.fromString (w₁ ++ s ++ w₂)) (Asset.fromString s) ↔ AssetUnmoved w₁ s w₂ := by
  constructor
  · intro h
    by_cases hs : IsAssetText s
    · right
      obtain ⟨r, hok⟩ := isAssetText_iff.1 hs
      have hpadded := (h r).2 hok
      obtain ⟨amt, code, rfl, hamt, haccepted, hval, hprec, -⟩ := fromString_eq_ok_iff.1 hok
      obtain ⟨rfl, hfree⟩ := accepted_padded hw₁ hw₂ hamt (isAssetText_iff.2 ⟨r, hpadded⟩)
      refine ⟨rfl, hfree, amt, code, rfl, hamt, haccepted, ?_⟩
      rw [List.append_nil, ← List.append_assoc] at hpadded
      obtain ⟨amt', code', hsplit, hamt', -, hval', hprec', -⟩ := fromString_eq_ok_iff.1 hpadded
      have hfree' : ' ' ∉ w₁ ++ amt := List.not_mem_append hfree hamt
      obtain ⟨rfl, rfl⟩ := split_unique hfree' hamt' hsplit
      exact (unseen_iff hw₁).2 ⟨hval'.symm.trans hval, hprec'.symm.trans hprec⟩
    · refine .inl ⟨hs, fun hpadded => hs ?_⟩
      obtain ⟨r, hok⟩ := isAssetText_iff.1 hpadded
      exact isAssetText_iff.2 ⟨r, (h r).1 hok⟩
  · rintro (⟨hs, hpadded⟩ | ⟨rfl, hfree, amt, code, rfl, hamt, haccepted, hunseen⟩) r
    · exact iff_of_false (fun h => hpadded (isAssetText_iff.2 ⟨r, h⟩)) fun h =>
        hs (isAssetText_iff.2 ⟨r, h⟩)
    · obtain ⟨hamount, hcount⟩ := (unseen_iff hw₁).1 hunseen
      obtain ⟨r', hok, hval, hprec, hcode⟩ := haccepted.fromString hamt
      have hfree' : ' ' ∉ w₁ ++ amt := List.not_mem_append hfree hamt
      have haccepted' := haccepted.padded hw₁ hunseen
      have hok' : Asset.fromString (w₁ ++ (amt ++ ' ' :: code) ++ []) = .ok r' := by
        refine fromString_eq_ok_iff.2 ⟨w₁ ++ amt, code, ?_, hfree', haccepted', hval.trans hamount.symm,
          hprec.trans hcount.symm, hcode⟩
        rw [List.append_nil, List.append_assoc]
      rw [hok, hok']

/-- The texts are trimmed alike, and both parsers read them alike. -/
def PaddingIgnored (w₁ s w₂ : Text) : Prop :=
  trim (w₁ ++ s ++ w₂) = trim s ∧
    SameOutcome (Asset.fromString (w₁ ++ s ++ w₂)) (Asset.fromString s) ∧
    SameOutcome (Symbol.fromString (w₁ ++ s ++ w₂)) (Symbol.fromString s)

/-- **When padding is ignored**: by all three only where there is none; by the parser of assets and that
of symbols where they do not come to it, or refuse the text with and without it. -/
theorem padding_iff (hw₁ : IsPadding w₁) (hw₂ : IsPadding w₂) :
    (PaddingIgnored w₁ s w₂ ↔ w₁ = [] ∧ w₂ = []) ∧
    (SameOutcome (Asset.fromString (w₁ ++ s ++ w₂)) (Asset.fromString s) ↔ AssetUnmoved w₁ s w₂) ∧
    (SameOutcome (Symbol.fromString (w₁ ++ s ++ w₂)) (Symbol.fromString s) ↔
      w₂ = [] ∨ ¬IsSymbolPair s) := by
  refine ⟨⟨fun h => trim_padded_iff.1 h.1, ?_⟩, asset_padded_iff hw₁ hw₂, symbol_padded_iff hw₁ hw₂⟩
  rintro ⟨rfl, rfl⟩
  rw [PaddingIgnored, List.nil_append, List.append_nil]
  exact ⟨rfl, fun _ => Iff.rfl, fun _ => Iff.rfl⟩

/-- A tab and a blank around the text of an asset. -/
theorem padding_sample :
    (PaddingIgnored ['\t'] "-1.50 WICC".toList [' '] ↔ ['\t'] = [] ∧ [' '] = []) ∧
    (SameOutcome (Asset.fromString (['\t'] ++ "-1.50 WICC".toList ++ [' ']))
      (Asset.fromString "-1.50 WICC".toList) ↔ AssetUnmoved ['\t'] "-1.50 WICC".toList [' ']) ∧
    (SameOutcome (Symbol.fromString (['\t'] ++ "-1.50 WICC".toList ++ [' ']))
      (Symbol.fromString "-1.50 WICC".toList) ↔ [' '] = [] ∨ ¬IsSymbolPair "-1.50 WICC".toList) :=
  padding_iff (by simp [IsPadding, isPadding]) (by simp [IsPadding, isPadding])

/-- A blank behind a text is refused, and a tab before it hides the sign of the fraction. -/
theorem padding_changes_outcome :
    trim "8,WICC ".toList ≠ trim "8,WICC".toList ∧
    Symbol.fromString "8,WICC ".toList = .error (.abort "invalid character in symbol name") ∧
    (∃ sym, Symbol.fromString "8,WICC".toList = .ok sym) ∧
    Asset.fromString "-1.50 WICC ".toList = .error (.abort "invalid character in symbol name") ∧
    (Asset.fromString "-1.50 WICC".toList).toOption.map (·.amount.val) = some (-150) ∧
    (Asset.fromString "\t-1.50 WICC".toList).toOption.map (·.amount.val) = some (-50) ∧
    ¬PaddingIgnored [] "8,WICC".toList [' '] := by
  refine ⟨by decide, by decide, ⟨_, rfl⟩, by decide +kernel, by decide +kernel, by decide +kernel, ?_⟩
  exact fun h => absurd (trim_padded_iff.1 h.1).2 (by decide)

end

end Wasmlib
