import WasmCdt.Cdt.Ricardian
import WasmCdt.Lib.Cursor
import Mathlib.Data.List.DropRight

/-!
# Reading Ricardian documents

The tokenizer on any text, and on documents rendered from ids and bodies.

* `check_ge`, `getDecl_lt`, `getBody_ge`: no position moves back, and a heading moves it on.
* `parseLoop_isSome`: so `parse` ends, with a round for every character at most.
* `check_exact`, `checks_spaced`, `isDecl_exact`: tokens without whitespace, and whitespace between
  them.
* `isDecl_other`: no heading starts at other text.
* `getDecl_exact`, `getBody_exact`: an id and a body.
* `ricardian_roundTrip`: **both**, for tags without whitespace.
-/

namespace Cdt

namespace Ricardian

open Cursor

variable {source : Source} {i index : Nat}

/-! ## Progress -/

theorem checkLoop_ge {sub : Text} {k : Nat} (h : checkLoop source index sub i = some k) :
    i + sub.length ≤ k := by
  induction sub generalizing i with
  | nil =>
    obtain rfl := Option.some.inj h
    exact Nat.le_refl _
  | cons c sub ih =>
    unfold checkLoop at h
    simp only at h
    split at h
    · cases h
    · have hle := ih h
      rw [List.length_cons]
      omega

theorem check_ge (sub : Text) : index ≤ (check source sub index).2 ∧
    ((check source sub index).1 = true → index + sub.length ≤ (check source sub index).2) := by
  unfold check
  split
  · exact ⟨Nat.le_refl _, fun h => by cases h⟩
  · rename_i k hk
    have hle := checkLoop_ge hk
    exact ⟨by simp only; omega, fun _ => by simp only; omega⟩

theorem checks_ge (subs : List Text) : index ≤ (checks source subs index).2 := by
  induction subs generalizing index with
  | nil => exact Nat.le_refl _
  | cons sub subs ih =>
    unfold checks
    have hge : index ≤ (check source sub index).2 := (check_ge sub).1
    split
    · exact hge.trans ih
    · exact hge

theorem isDecl_lt {type : Text} (h : (isDecl source type index).1 = true) :
    index < (isDecl source type index).2 := by
  unfold isDecl checks at h ⊢
  split at h
  · rename_i hfirst
    rw [if_pos hfirst]
    have hlt := (check_ge "<".toList).2 hfirst
    exact hlt.trans (checks_ge _)
  · rename_i hfirst
    exact absurd h hfirst

theorem declLoop_ge (s : Text) (after ws : Nat) : after ≤ (declLoop s after ws).1 := by
  induction s generalizing after ws with
  | nil => exact Nat.le_refl _
  | cons c s ih =>
    unfold declLoop
    split
    · exact Nat.le_refl _
    · exact (Nat.le_succ _).trans (ih _ _)

theorem bodyLoop_ge {type : Text} (s : Text) (i ws : Nat) : i ≤ (bodyLoop source type s i ws).1 := by
  induction s generalizing i ws with
  | nil => exact Nat.le_refl _
  | cons c s ih =>
    unfold bodyLoop
    split
    · exact Nat.le_refl _
    · exact (Nat.le_succ _).trans (ih _ _)

theorem getDecl_lt {type id : Text} {k : Nat} (h : getDecl source type index = .ok (some id, k)) :
    index < k := by
  unfold getDecl at h
  split at h
  · rename_i hdecl
    simp only at h
    split at h
    · unfold substr at h
      split at h
      · have hpair := congrArg Prod.snd (Except.ok.inj h)
        simp only at hpair
        rw [← hpair]
        exact (isDecl_lt hdecl).trans_le ((declLoop_ge _ _ _).trans (checks_ge _))
      · cases h
    · cases h
  · cases h

theorem getBody_ge {type body : Text} {k : Nat} (h : getBody source type index = .ok (body, k)) :
    index ≤ k := by
  unfold getBody substr at h
  simp only at h
  split at h
  · have hpair := congrArg Prod.snd (Except.ok.inj h)
    simp only at hpair
    rw [← hpair]
    exact bodyLoop_ge _ _ _
  · cases h

/-- **`parse` ends**: every round but the last moves on. -/
theorem parseLoop_isSome {type : Text} {fuel : Nat} {ret : List (Text × Text)}
    (h : size source - index < fuel) : (parseLoop source type fuel index ret).isSome = true := by
  induction fuel generalizing index ret with
  | zero => omega
  | succ fuel ih =>
    unfold parseLoop
    split
    · rename_i hin
      split
      · rfl
      · rfl
      · rename_i id k hdecl
        have hlt := getDecl_lt hdecl
        split
        · rfl
        · rename_i body m hbody
          have hge := getBody_ge hbody
          exact ih (by omega)
    · rfl

/-! ## Whitespace -/

/-- Whitespace only. -/
def Blank (w : Text) : Prop := ∀ c ∈ w, isWs c = true

/-- No whitespace. -/
def Solid (s : Text) : Prop := ∀ c ∈ s, isWs c = false

/-- No whitespace in front. -/
def Starts (s : Text) : Prop := ∀ c ∈ s.head?, isWs c = false

/-- No whitespace at the end. -/
def Ends (s : Text) : Prop := ∀ c ∈ s.getLast?, isWs c = false

instance (w : Text) : Decidable (Blank w) := List.decidableBAll _ w

instance (s : Text) : Decidable (Solid s) := List.decidableBAll _ s

instance (s : Text) : Decidable (Starts s) := Option.decidableForallMem s.head?

instance (s : Text) : Decidable (Ends s) := Option.decidableForallMem s.getLast?

theorem blank_nil : Blank [] := fun _ h => nomatch h

theorem Solid.starts {s : Text} (h : Solid s) : Starts s :=
  fun c hc => h c (List.mem_of_mem_head? hc)

theorem starts_append {s t : Text} (hs : Starts s) (ht : s = [] → Starts t) : Starts (s ++ t) := by
  cases s with
  | nil => exact ht rfl
  | cons c s => exact hs

theorem takeWhile_blank {w t : Text} (hw : Blank w) (ht : Starts t) :
    (w ++ t).takeWhile isWs = w := by
  have hrest : t.takeWhile isWs = [] := by
    cases t with
    | nil => rfl
    | cons c t => rw [List.takeWhile_cons_of_neg (Bool.eq_false_iff.1 (ht c rfl))]
  rw [List.takeWhile_append_of_pos hw, hrest, List.append_nil]

/-! ## Reading -/

/-- The character read, or the NUL at the end. -/
theorem charAt_eq {t : Text} (h : Reads source.text i t) : charAt source i = t.headD '\x00' := by
  unfold charAt
  cases t with
  | nil =>
    have hend := h.eq_nil_iff.2 rfl
    rw [hend, List.getD_eq_getElem?_getD, List.getElem?_append_right (Nat.le_refl _), Nat.sub_self]
    rfl
  | cons c t =>
    have hlen := h.length
    rw [List.length_cons] at hlen
    rw [List.getD_eq_getElem?_getD, List.getElem?_append_left (by omega), h.getElem?_eq]
    rfl

theorem isWs_headD {t : Text} (h : Starts t) : isWs (t.headD '\x00') = false := by
  cases t with
  | nil => rfl
  | cons c t => exact h c rfl

theorem eatWs_starts {t : Text} (h : Reads source.text i t) (ht : Starts t) : eatWs source index i = 0 := by
  unfold eatWs
  rw [charAt_eq h, isWs_headD ht]
  rfl

/-- From where it stands, `eat_ws` counts the whitespace. -/
theorem eatWs_blank {w t : Text} (h : Reads source.text i (w ++ t)) (hw : Blank w) (ht : Starts t) :
    eatWs source i i = w.length := by
  cases w with
  | nil => exact eatWs_starts h ht
  | cons c w =>
    have hc : isWs c = true := hw c (.head _)
    unfold eatWs
    rw [charAt_eq h, h.drop, takeWhile_blank hw ht, List.cons_append, List.headD_cons, hc]
    simp

/-! ## Tokens -/

theorem checkLoop_cons (c : Char) (sub : Text) : checkLoop source index (c :: sub) i =
    if c ≠ charAt source (i + eatWs source index i) then none
    else checkLoop source index sub (i + eatWs source index i + 1) := rfl

theorem check_of_some {sub : Text} (h : checkLoop source index sub index = some i) :
    check source sub index = (true, i + eatWs source i i) := by
  unfold check
  rw [h]

theorem check_of_none {sub : Text} (h : checkLoop source index sub index = none) :
    check source sub index = (false, index) := by
  unfold check
  rw [h]

theorem checkLoop_exact {sub t : Text} (h : Reads source.text i (sub ++ t)) (hsub : Solid sub) :
    checkLoop source index sub i = some (i + sub.length) := by
  induction sub generalizing i with
  | nil => rfl
  | cons c sub ih =>
    have hstarts : Starts (c :: (sub ++ t)) := fun d hd => by
      cases hd
      exact hsub c (.head _)
    rw [List.cons_append] at h
    rw [checkLoop_cons, eatWs_starts h hstarts, Nat.add_zero, charAt_eq h, List.headD_cons,
      if_neg (not_not_intro rfl), ih h.next fun d hd => hsub d (.tail _ hd), List.length_cons]
    congr 1
    omega

/-- A token with whitespace around it. -/
theorem check_exact {w sub w' t : Text} (h : Reads source.text i (w ++ (sub ++ (w' ++ t)))) (hw : Blank w)
    (hne : sub ≠ []) (hsub : Solid sub) (hw' : Blank w') (ht : Starts t) :
    check source sub i = (true, i + (w.length + (sub.length + w'.length))) := by
  cases sub with
  | nil => exact absurd rfl hne
  | cons c sub =>
    have hstarts : Starts (c :: sub ++ (w' ++ t)) := fun d hd => by
      cases hd
      exact hsub c (.head _)
    have hthere := h.advance
    have hrest : checkLoop source i sub (i + w.length + 1) = some (i + w.length + 1 + sub.length) :=
      checkLoop_exact hthere.next fun d hd => hsub d (.tail _ hd)
    have hend : Reads source.text (i + w.length + 1 + sub.length) (w' ++ t) := hthere.next.advance
    have hloop : checkLoop source i (c :: sub) i = some (i + w.length + 1 + sub.length) := by
      rw [checkLoop_cons, eatWs_blank h hw hstarts, charAt_eq hthere, List.cons_append,
        List.headD_cons, if_neg (not_not_intro rfl), hrest]
    rw [check_of_some hloop, eatWs_blank hend hw' ht, List.length_cons]
    congr 1
    omega

/-- Tokens, each with whitespace behind it. -/
def spaced (tokens : List (Text × Text)) : Text := tokens.flatMap fun p => p.1 ++ p.2

theorem spaced_cons (p : Text × Text) (tokens : List (Text × Text)) :
    spaced (p :: tokens) = p.1 ++ (p.2 ++ spaced tokens) := by
  rw [spaced, List.flatMap_cons, List.append_assoc]
  rfl

theorem checks_spaced {tokens : List (Text × Text)} {w t : Text}
    (h : Reads source.text i (w ++ (spaced tokens ++ t))) (hw : Blank w) (hempty : tokens = [] → w = [])
    (hsolid : ∀ p ∈ tokens, p.1 ≠ [] ∧ Solid p.1 ∧ Blank p.2) (ht : Starts t) :
    checks source (tokens.map Prod.fst) i = (true, i + (w.length + (spaced tokens).length)) := by
  induction tokens generalizing i w with
  | nil =>
    rw [hempty rfl]
    rfl
  | cons p tokens ih =>
    obtain ⟨hne, hsub, hblank⟩ := hsolid p (.head _)
    have htail := fun q hq => hsolid q (.tail _ hq)
    have hstarts : Starts (spaced tokens ++ t) := by
      cases tokens with
      | nil => exact ht
      | cons q tokens =>
        obtain ⟨hne', hsub', -⟩ := htail q (.head _)
        rw [spaced_cons, List.append_assoc]
        exact starts_append hsub'.starts fun h => absurd h hne'
    rw [spaced_cons, List.append_assoc, List.append_assoc] at h
    have hcheck := check_exact h hw hne hsub hblank hstarts
    have hthere : Reads source.text (i + (w.length + (p.1.length + p.2.length))) (spaced tokens ++ t) := by
      have hadv := h.advance.advance.advance
      rwa [Nat.add_assoc, Nat.add_assoc] at hadv
    rw [List.map_cons, checks, hcheck, if_pos rfl,
      ih (w := []) hthere blank_nil (fun _ => rfl) htail, spaced_cons, List.length_append,
      List.length_append, List.length_nil]
    congr 1
    omega

/-- No token is found at a character that is not its first. -/
theorem check_other {w t sub : Text} {c : Char} (h : Reads source.text i (w ++ t)) (hw : Blank w)
    (ht : Starts t) (hc : t.headD '\x00' ≠ c) : check source (c :: sub) i = (false, i) := by
  apply check_of_none
  rw [checkLoop_cons, eatWs_blank h hw ht, charAt_eq h.advance, if_pos hc.symm]

/-! ## Headings -/

/-- The opening tag of a heading. -/
def heading (type : Text) : Text := "<h1 class=\"".toList ++ type ++ "\">".toList

def closing : Text := "</h1>".toList

theorem heading_eq (type : Text) :
    heading type = '<' :: ("h1 class=\"".toList ++ (type ++ "\">".toList)) := by
  have hopen : "<h1 class=\"".toList = '<' :: "h1 class=\"".toList := by decide
  unfold heading
  simp only [hopen, List.cons_append, List.append_assoc]

theorem closing_eq : closing = '<' :: "/h1>".toList := by decide

/-- The tokens of the opening tag, with whitespace behind it. -/
def headingTokens (type w : Text) : List (Text × Text) :=
  [("<".toList, []), ("h1".toList, [' ']), ("class".toList, []), ("=".toList, []),
    ('\"' :: type ++ ['\"'], []), (">".toList, w)]

theorem spaced_heading (type w : Text) : spaced (headingTokens type w) = heading type ++ w := by
  have hopen : "<h1 class=\"".toList = "<".toList ++ ("h1".toList ++ ([' '] ++ ("class".toList ++
      ("=".toList ++ ['\"'])))) := by decide
  have hclose : "\">".toList = '\"' :: ">".toList := by decide
  unfold spaced headingTokens heading
  simp only [hopen, hclose, List.flatMap_cons, List.flatMap_nil, List.append_nil, List.append_assoc,
    List.cons_append, List.nil_append]

theorem solid_headingTokens {type w : Text} (htype : Solid type) (hw : Blank w) :
    ∀ p ∈ headingTokens type w, p.1 ≠ [] ∧ Solid p.1 ∧ Blank p.2 := by
  have hquoted : Solid ('\"' :: type ++ ['\"']) := by
    intro c hc
    rw [List.cons_append, List.mem_cons, List.mem_append, List.mem_singleton] at hc
    rcases hc with rfl | hc | rfl
    · rfl
    · exact htype c hc
    · rfl
  intro p hp
  simp only [headingTokens, List.mem_cons, List.not_mem_nil, or_false] at hp
  rcases hp with rfl | rfl | rfl | rfl | rfl | rfl
  · exact ⟨by decide, by decide, by decide⟩
  · exact ⟨by decide, by decide, by decide⟩
  · exact ⟨by decide, by decide, by decide⟩
  · exact ⟨by decide, by decide, by decide⟩
  · exact ⟨by simp, hquoted, blank_nil⟩
  · have hlast : ">".toList ≠ [] ∧ Solid ">".toList := by decide
    exact ⟨hlast.1, hlast.2, hw⟩

/-- A heading is recognized, behind whitespace too. -/
theorem isDecl_exact {type w w' t : Text} (htype : Solid type)
    (h : Reads source.text i (w ++ (heading type ++ (w' ++ t)))) (hw : Blank w) (hw' : Blank w')
    (ht : Starts t) :
    isDecl source type i = (true, i + (w.length + ((heading type).length + w'.length))) := by
  rw [← List.append_assoc (heading type), ← spaced_heading] at h
  have hchecks := checks_spaced h hw (fun h => by cases h) (solid_headingTokens htype hw') ht
  rw [spaced_heading, List.length_append] at hchecks
  exact hchecks

/-- No heading starts where there is no `<`. -/
theorem isDecl_other {type w t : Text} (h : Reads source.text i (w ++ t)) (hw : Blank w) (ht : Starts t)
    (hc : t.headD '\x00' ≠ '<') : (isDecl source type i).1 = false := by
  have hcheck : check source "<".toList i = (false, i) := check_other h hw ht hc
  unfold isDecl checks
  rw [hcheck]
  rfl

/-! ## Ids -/

/-- A piece of a document: no tag in it, and no whitespace around it. -/
structure Piece (s : Text) : Prop where
  starts : Starts s
  ends : Ends s
  untagged : '<' ∉ s

theorem Piece.of_cons {c : Char} {s : Text} (h : Ends (c :: s)) : Ends s := fun d hd => by
  cases s with
  | nil => cases hd
  | cons b s => exact h d hd

/-- The whitespace counted behind a text without any at its end. -/
theorem countWs_ends {c : Char} {s : Text} {ws : Nat} (h : Ends (c :: s)) :
    (if s = [] then countWs c ws else 0) = 0 := by
  split
  · rename_i hnil
    subst hnil
    unfold countWs
    rw [h c rfl]
    rfl
  · rfl

theorem declLoop_exact {id : Text} (t : Text) (after ws : Nat) (hends : Ends id) (hid : '<' ∉ id) :
    declLoop (id ++ '<' :: t) after ws = (after + id.length, if id = [] then ws else 0) := by
  induction id generalizing after ws with
  | nil => rfl
  | cons c id ih =>
    have hc : c ≠ '<' := fun h => hid (h ▸ .head _)
    rw [List.cons_append, declLoop, if_neg hc,
      ih _ _ (Piece.of_cons hends) fun h => hid (.tail _ h), countWs_ends hends, List.length_cons,
      if_neg (List.cons_ne_nil c id)]
    congr 1
    omega

theorem substr_reads {s t : Text} (h : Reads source.text i (s ++ t)) :
    substr source i s.length = .ok s := by
  unfold substr Text.substr size
  rw [if_pos h.le, h.drop, List.take_left]

/-- The tokens of the closing tag. -/
def closingTokens (w : Text) : List (Text × Text) :=
  [("<".toList, []), ("/h1".toList, []), (">".toList, w)]

theorem closing_exact {w t : Text} (h : Reads source.text i (closing ++ (w ++ t))) (hw : Blank w)
    (ht : Starts t) :
    checks source ["<".toList, "/h1".toList, ">".toList] i
      = (true, i + (closing.length + w.length)) := by
  have hspaced : spaced (closingTokens w) = closing ++ w := by simp [spaced, closingTokens, closing]
  have hsolid : ∀ p ∈ closingTokens w, p.1 ≠ [] ∧ Solid p.1 ∧ Blank p.2 := by
    intro p hp
    simp only [closingTokens, List.mem_cons, List.not_mem_nil, or_false] at hp
    rcases hp with rfl | rfl | rfl
    · exact ⟨by decide, by decide, by decide⟩
    · exact ⟨by decide, by decide, by decide⟩
    · have hlast : ">".toList ≠ [] ∧ Solid ">".toList := by decide
      exact ⟨hlast.1, hlast.2, hw⟩
  rw [← List.append_assoc, ← hspaced] at h
  have hchecks := checks_spaced (w := []) h blank_nil (fun _ => rfl) hsolid ht
  rw [hspaced, List.length_append, List.length_nil, Nat.zero_add] at hchecks
  exact hchecks

/-- A heading with its id, and the whitespace behind it. -/
theorem getDecl_exact {type w id w' t : Text} (htype : Solid type)
    (h : Reads source.text i (w ++ (heading type ++ (id ++ (closing ++ (w' ++ t)))))) (hw : Blank w)
    (hid : Piece id) (hw' : Blank w') (ht : Starts t) :
    ∃ k, getDecl source type i = .ok (some id, k) ∧ Reads source.text k t := by
  have hstarts : Starts (id ++ (closing ++ (w' ++ t))) := starts_append hid.starts fun _ c hc => by
    rw [closing_eq, List.cons_append, List.head?_cons, Option.mem_some_iff] at hc
    rw [← hc]
    rfl
  have hdecl : isDecl source type i
      = (true, i + (w.length + ((heading type).length + ([] : Text).length))) :=
    isDecl_exact htype h hw blank_nil hstarts
  rw [List.length_nil, Nat.add_zero] at hdecl
  have hbefore : Reads source.text (i + (w.length + (heading type).length))
      (id ++ (closing ++ (w' ++ t))) := by
    have hadv := h.advance.advance
    rwa [Nat.add_assoc] at hadv
  have hloop : declLoop (source.text.drop (i + (w.length + (heading type).length)))
      (i + (w.length + (heading type).length)) 0
        = (i + (w.length + (heading type).length) + id.length, 0) := by
    rw [hbefore.drop]
    rw [closing_eq, List.cons_append, declLoop_exact _ _ _ hid.ends hid.untagged, ite_self]
  have hclosing := closing_exact hbefore.advance hw' ht
  refine ⟨i + (w.length + (heading type).length) + id.length + (closing.length + w'.length), ?_, ?_⟩
  · unfold getDecl
    rw [hdecl]
    simp only [if_true, hloop, hclosing]
    have hlen : i + (w.length + (heading type).length) + id.length
        - (i + (w.length + (heading type).length)) - 0 = id.length := by omega
    rw [hlen, substr_reads hbefore]
    rfl
  · have hadv := hbefore.advance.advance.advance
    rwa [Nat.add_assoc (i + (w.length + (heading type).length) + id.length)] at hadv

/-! ## Bodies -/

/-- Inside a body no heading starts: behind any whitespace follows a character of the body. -/
theorem isDecl_body {type u t : Text} (h : Reads source.text i (u ++ t)) (hne : u ≠ []) (hends : Ends u)
    (hu : '<' ∉ u) : (isDecl source type i).1 = false := by
  have hsplit : u = u.takeWhile isWs ++ u.dropWhile isWs := (List.takeWhile_append_dropWhile).symm
  have hblank : Blank (u.takeWhile isWs) := fun c hc => List.mem_takeWhile_imp hc
  cases hrest : u.dropWhile isWs with
  | nil =>
    -- then the last character is whitespace
    rw [hrest, List.append_nil] at hsplit
    have hws : isWs (u.getLast hne) = true := hblank _ (hsplit ▸ List.getLast_mem hne)
    rw [hends _ (List.getLast?_eq_some_getLast hne)] at hws
    cases hws
  | cons c v =>
    have hc : isWs c = false := by
      have hhead := List.head?_dropWhile_not isWs u
      rw [hrest] at hhead
      exact hhead
    have hmem : c ∈ u := (List.dropWhile_sublist isWs).subset (hrest ▸ .head _)
    rw [hsplit, hrest, List.append_assoc] at h
    refine isDecl_other h hblank (fun d hd => ?_) fun heq => hu (heq ▸ hmem)
    cases hd
    exact hc

theorem bodyLoop_body {type u t : Text} {ws : Nat} (h : Reads source.text i (u ++ t)) (hends : Ends u)
    (hu : '<' ∉ u) :
    bodyLoop source type (u ++ t) i ws
      = bodyLoop source type t (i + u.length) (if u = [] then ws else 0) := by
  induction u generalizing i ws with
  | nil => rfl
  | cons c u ih =>
    have hdecl := @isDecl_body _ _ type _ _ h (List.cons_ne_nil c u) hends hu
    rw [List.cons_append, bodyLoop, hdecl, if_neg Bool.false_ne_true,
      ih h.next (Piece.of_cons hends) fun h => hu (.tail _ h), countWs_ends hends, List.length_cons,
      if_neg (List.cons_ne_nil c u), Nat.add_assoc i 1, Nat.add_comm 1]

/-- The whitespace at the end of the text. -/
theorem bodyLoop_blank {type w : Text} {ws : Nat} (h : Reads source.text i w) (hw : Blank w) :
    bodyLoop source type w i ws = (i + w.length, ws + w.length) := by
  induction w generalizing i ws with
  | nil => rfl
  | cons c w ih =>
    have hnil : Reads source.text i ((c :: w) ++ []) := by rwa [List.append_nil]
    have hdecl : (isDecl source type i).1 = false :=
      isDecl_other hnil hw (fun _ hd => nomatch hd) (by decide)
    have hc : countWs c ws = ws + 1 := if_pos (hw c (.head _))
    rw [bodyLoop, hdecl, if_neg Bool.false_ne_true, hc, ih h.next fun d hd => hw d (.tail _ hd),
      List.length_cons]
    congr 1 <;> omega

/-- At a heading the body ends. -/
theorem bodyLoop_heading {type w t : Text} {ws : Nat} (htype : Solid type)
    (h : Reads source.text i (w ++ (heading type ++ t))) (hw : Blank w) (ht : Starts t) :
    bodyLoop source type (w ++ (heading type ++ t)) i ws = (i, ws) := by
  have hdecl : isDecl source type i
      = (true, i + (w.length + ((heading type).length + ([] : Text).length))) :=
    isDecl_exact htype h hw blank_nil ht
  obtain ⟨c, s, hs⟩ : ∃ c s, w ++ (heading type ++ t) = c :: s := by
    cases w with
    | nil => exact ⟨_, _, by rw [heading_eq, List.cons_append, List.nil_append]⟩
    | cons c w => exact ⟨c, _, List.cons_append⟩
  rw [hs, bodyLoop, hdecl, if_pos rfl]

/-! ## Documents -/

/-- An id, a body, and the whitespace behind it. -/
structure Entry where
  id : Text
  body : Text
  ws : Text
  deriving DecidableEq, Repr

/-- `<h1 class="type">id</h1>`, a newline, the body and the whitespace. -/
def Entry.render (type : Text) (e : Entry) : Text :=
  heading type ++ (e.id ++ (closing ++ (['\n'] ++ (e.body ++ e.ws))))

def render (type : Text) (entries : List Entry) : Text := entries.flatMap (Entry.render type)

/-- The id and the body are without tags and without whitespace around them. -/
structure Entry.Clean (e : Entry) : Prop where
  id : Piece e.id
  body : Piece e.body
  ws : Blank e.ws

theorem render_cons (type : Text) (e : Entry) (entries : List Entry) :
    render type (e :: entries) = heading type ++ (e.id ++ (closing ++ (['\n'] ++
      (e.body ++ (e.ws ++ render type entries))))) := by
  simp only [render, List.flatMap_cons, Entry.render, List.append_assoc]

theorem starts_render (type : Text) (entries : List Entry) : Starts (render type entries) := by
  cases entries with
  | nil => exact fun _ h => nomatch h
  | cons e entries =>
    intro c hc
    rw [render_cons, heading_eq, List.cons_append, List.head?_cons, Option.mem_some_iff] at hc
    rw [← hc]
    rfl

/-- The loop over a body in front of the next headings, or at the end of the text. -/
theorem bodyLoop_exact {type w body : Text} {entries : List Entry} (htype : Solid type)
    (h : Reads source.text i (body ++ (w ++ render type entries))) (hbody : Piece body) (hw : Blank w)
    (hclean : ∀ e ∈ entries, e.Clean) :
    ∃ w' : Text, bodyLoop source type (body ++ (w ++ render type entries)) i 0
        = (i + (body.length + w'.length), w'.length) ∧
      Reads source.text (i + (body.length + w'.length)) (w.drop w'.length ++ render type entries) ∧
      (entries = [] → w.drop w'.length = []) := by
  have hthere := h.advance
  rw [bodyLoop_body h hbody.ends hbody.untagged, ite_self]
  cases entries with
  | nil =>
    have hend : Reads source.text (i + body.length) w := by
      rwa [render, List.flatMap_nil, List.append_nil] at hthere
    refine ⟨w, ?_, ?_, fun _ => List.drop_length⟩
    · rw [render, List.flatMap_nil, List.append_nil, bodyLoop_blank hend hw, Nat.zero_add,
        Nat.add_assoc]
    · rw [List.drop_length, ← Nat.add_assoc]
      exact hthere.advance
  | cons e entries =>
    refine ⟨[], ?_, hthere, fun h => nomatch h⟩
    rw [render_cons] at hthere ⊢
    have hstarts : Starts (e.id ++ (closing ++ (['\n'] ++ (e.body ++ (e.ws ++ render type entries))))) := by
      refine starts_append (hclean e (.head _)).id.starts fun _ c hc => ?_
      rw [closing_eq, List.cons_append, List.head?_cons, Option.mem_some_iff] at hc
      rw [← hc]
      rfl
    rw [bodyLoop_heading htype hthere hw hstarts]
    rfl

theorem getBody_exact {type w body : Text} {entries : List Entry} (htype : Solid type)
    (h : Reads source.text i (body ++ (w ++ render type entries))) (hbody : Piece body) (hw : Blank w)
    (hclean : ∀ e ∈ entries, e.Clean) :
    ∃ k w', getBody source type i = .ok (body, k) ∧ Reads source.text k (w' ++ render type entries) ∧
      Blank w' ∧ (entries = [] → w' = []) := by
  obtain ⟨w', hloop, hreads, hnil⟩ := bodyLoop_exact htype h hbody hw hclean
  refine ⟨_, w.drop w'.length, ?_, hreads, fun c hc => hw c (List.mem_of_mem_drop hc), hnil⟩
  have hlen : i + (body.length + w'.length) - i - w'.length = body.length := by omega
  unfold getBody
  simp only [h.drop, hloop, hlen, substr_reads h]
  rfl

/-- The loop of `parse`, from where headings follow. -/
theorem parseLoop_exact {type w : Text} {entries : List Entry} {ret : List (Text × Text)} {fuel : Nat}
    (htype : Solid type) (h : Reads source.text i (w ++ render type entries)) (hw : Blank w)
    (hnil : entries = [] → w = []) (hclean : ∀ e ∈ entries, e.Clean)
    (hfuel : entries.length < fuel) :
    parseLoop source type fuel i ret
      = some (.ok (ret ++ entries.map fun e => (e.id, e.body))) := by
  induction entries generalizing i w ret fuel with
  | nil =>
    obtain ⟨fuel, rfl⟩ := Nat.exists_eq_succ_of_ne_zero (Nat.ne_of_gt hfuel)
    have hend := h.length
    rw [hnil rfl, render, List.flatMap_nil, List.nil_append, List.length_nil] at hend
    have hout : ¬ i < size source := by
      unfold size
      omega
    rw [parseLoop, if_neg hout, List.map_nil, List.append_nil]
  | cons e entries ih =>
    obtain ⟨fuel, rfl⟩ := Nat.exists_eq_succ_of_ne_zero (Nat.ne_of_gt (Nat.zero_lt_of_lt hfuel))
    obtain ⟨hid, hbody, hws⟩ := hclean e (.head _)
    have htail := fun x hx => hclean x (.tail _ hx)
    have hin : i < size source := by
      unfold size
      have hlen := h.length
      rw [render_cons, heading_eq, List.length_append, List.cons_append, List.length_cons] at hlen
      omega
    rw [render_cons] at h
    -- an empty body leaves the newline and the whitespace behind the heading
    obtain ⟨v, u, hv, hu, hstart, hbetween⟩ : ∃ v u, Blank v ∧ Blank u ∧
        Starts (e.body ++ (u ++ render type entries)) ∧
        ['\n'] ++ (e.body ++ (e.ws ++ render type entries))
          = v ++ (e.body ++ (u ++ render type entries)) := by
      by_cases hempty : e.body = []
      · refine ⟨'\n' :: e.ws, [], ?_, blank_nil, ?_, ?_⟩
        · intro c hc
          rcases List.mem_cons.1 hc with rfl | hc
          · rfl
          · exact hws c hc
        · rw [hempty]
          exact starts_render type entries
        · rw [hempty]
          rfl
      · refine ⟨['\n'], e.ws, by decide, hws, ?_, rfl⟩
        exact starts_append hbody.starts fun h => absurd h hempty
    rw [hbetween] at h
    obtain ⟨k, hdecl, hk⟩ := getDecl_exact htype h hw hid hv hstart
    obtain ⟨m, w', hgot, hm, hw', hnil'⟩ := getBody_exact htype hk hbody hu htail
    rw [parseLoop, if_pos hin, hdecl]
    simp only [hgot]
    rw [ih hm hw' hnil' htail (Nat.lt_of_succ_lt_succ hfuel), List.map_cons, List.append_assoc]
    rfl

theorem length_render (type : Text) (entries : List Entry) :
    entries.length ≤ (render type entries).length := by
  induction entries with
  | nil => exact Nat.zero_le _
  | cons e entries ih =>
    rw [render_cons, heading_eq]
    simp only [List.length_append, List.length_cons]
    omega

/-- **The round trip**: any text is parsed with a round for each character, and a document gives its
ids and bodies in order, whatever the memory behind it. -/
theorem ricardian_roundTrip :
    (∀ (source : Source) (type : Text) (fuel : Nat), size source < fuel →
      (parse source type fuel).isSome = true) ∧
    ∀ (type : Text) (entries : List Entry) (memory : Nat → Char) (fuel : Nat),
      (Solid type ∨ entries = []) → (∀ e ∈ entries, e.Clean) →
      (render type entries).length < fuel →
      parse ⟨render type entries, memory⟩ type fuel
        = some (.ok (entries.map fun e => (e.id, e.body))) := by
  refine ⟨fun source type fuel h => parseLoop_isSome (by omega), ?_⟩
  intro type entries memory fuel htype hclean hfuel
  have hlen := length_render type entries
  rcases htype with htype | rfl
  · have hstart := reads_start (render type entries)
    have hfuel := hlen.trans_lt hfuel
    exact @parseLoop_exact ⟨_, memory⟩ 0 type [] entries [] fuel htype hstart blank_nil
      (fun _ => rfl) hclean hfuel
  · obtain ⟨fuel, rfl⟩ := Nat.exists_eq_succ_of_ne_zero (Nat.ne_of_gt (Nat.zero_lt_of_lt hfuel))
    rfl

/-- A contract with an id and a body. -/
def transferDocument : Entry := ⟨"transfer".toList, "pays the receiver".toList, "\n\n".toList⟩

theorem transferDocument_clean : transferDocument.Clean :=
  ⟨⟨by decide, by decide, by decide⟩, ⟨by decide, by decide, by decide⟩, by decide⟩

theorem ricardian_roundTrip_transfer :
    (parse ⟨"<h1".toList, fun _ => 'h'⟩ "contract".toList 4).isSome = true ∧
    (Solid "contract".toList ∨ [transferDocument] = []) ∧ (∀ e ∈ [transferDocument], e.Clean) ∧
    parse ⟨render "contract".toList [transferDocument], fun _ => 'h'⟩ "contract".toList 100
      = some (.ok [("transfer".toList, "pays the receiver".toList)]) := by
  have hsolid : Solid "contract".toList ∨ [transferDocument] = [] := .inl (by decide)
  have hclean : ∀ e ∈ [transferDocument], e.Clean := fun e he => by
    rw [List.mem_singleton.1 he]
    exact transferDocument_clean
  refine ⟨ricardian_roundTrip.1 _ _ _ (by decide), hsolid, hclean, ?_⟩
  exact ricardian_roundTrip.2 _ _ _ _ hsolid hclean (by decide)

/-- A tag with a blank is never found: before every character `check` skips the whitespace. -/
theorem ricardian_spacedTag :
    ¬ ∀ (type : Text) (entries : List Entry) (memory : Nat → Char) (fuel : Nat),
      (∀ e ∈ entries, e.Clean) → (render type entries).length < fuel →
      parse ⟨render type entries, memory⟩ type fuel
        = some (.ok (entries.map fun e => (e.id, e.body))) := by
  intro h
  have hclean : ∀ e ∈ [transferDocument], e.Clean := fun e he => by
    rw [List.mem_singleton.1 he]
    exact transferDocument_clean
  have hparse := h "my contract".toList [transferDocument] (fun _ => '\x00') 100 hclean (by decide)
  have hempty : parse ⟨render "my contract".toList [transferDocument], fun _ => '\x00'⟩
      "my contract".toList 100 = some (.ok []) := by decide
  rw [hempty] at hparse
  cases Except.ok.inj (Option.some.inj hparse)

end Ricardian

end Cdt
