import WasmCdt.Core.FixedBytes
import WasmCdt.Core.Proof.RoundTrip
import WasmCdt.Lib.BigEndian
import Mathlib.Tactic.Ring

/-!
# Fixed bytes from words

The words of the sequence are packed into those of the object, big-endian. The last one is moved up by a
byte for each word that it has too few, not by a word, and an object that is not initialized keeps the
words that none is stored to.

* `setFromWords_stores`: the words stored.
* `ofStdArray_bytes`: from as many bytes as the object has, it is the one that is read from a stream.
* `extract_eq`: the bytes of an object.
* `fixedWords_iff`: **when the bytes are those of the sequence**, and zeros behind.
-/

namespace Wasmlib

open FixedBytes BigEndian

variable {size : Nat} {t : SubWord}

theorem FixedBytes.SubWord.bytes_perWord (t : SubWord) :
    t.bytes * t.perWord = 16 ∧ 1 ≤ t.bytes ∧ t.bytes ≤ 8 ∧ 2 ≤ t.perWord := by
  cases t <;> decide

/-! ## The words stored -/

/-- The numbers of the words. -/
def nats (words : List (BitVec (8 * t.bytes))) : List Nat := words.map BitVec.toNat

theorem nats_append (a b : List (BitVec (8 * t.bytes))) : nats (a ++ b) = nats a ++ nats b :=
  List.map_append

theorem nats_length (words : List (BitVec (8 * t.bytes))) : (nats words).length = words.length :=
  List.length_map _

theorem pow_bytes (b : Nat) : 256 ^ b = 2 ^ (8 * b) := by rw [Nat.pow_mul]

theorem nats_lt (words : List (BitVec (8 * t.bytes))) : ∀ x ∈ nats words, x < 256 ^ t.bytes := by
  intro x hx
  obtain ⟨c, -, rfl⟩ := List.mem_map.1 hx
  rw [pow_bytes]
  exact c.isLt

/-- A word is put behind those in front of it. -/
theorem or_word {temp : Word} {p : Nat} (h : temp.toNat = p * 256 ^ t.bytes)
    (c : BitVec (8 * t.bytes)) :
    (temp ||| c.setWidth 128).toNat = p * 256 ^ t.bytes + c.toNat := by
  have hle : 2 ^ (8 * t.bytes) ≤ 2 ^ 128 :=
    Nat.pow_le_pow_right (by decide) (by have := t.bytes_perWord; omega)
  rw [BitVec.toNat_or, BitVec.toNat_setWidth, Nat.mod_eq_of_lt (c.isLt.trans_le hle), h, pow_bytes,
    Nat.mul_comm, ← Nat.two_pow_add_eq_or_of_lt c.isLt]

/-- The shift where the bits above are free. -/
theorem shl_word {v : Word} {b : Nat} (h : v.toNat * 256 ^ b < 256 ^ 16) :
    (v <<< (8 * b)).toNat = v.toNat * 256 ^ b := by
  rw [BitVec.toNat_shiftLeft, Nat.shiftLeft_eq, ← pow_bytes]
  exact Nat.mod_eq_of_lt h

/-- Words that do not fill the word. -/
theorem setFromWords_part {chunk : List (BitVec (8 * t.bytes))} {p left : Nat} {temp : Word}
    (ws : List (BitVec (8 * t.bytes))) (itr : Nat) (key : FixedBytes size)
    (hlen : chunk.length < left) (hleft : left ≤ t.perWord)
    (hp : p < 256 ^ (t.bytes * (t.perWord - left))) (htemp : temp.toNat = p * 256 ^ t.bytes) :
    ∃ temp' : Word, setFromWords t (chunk ++ ws) itr temp left key =
        setFromWords t ws itr temp' (left - chunk.length) key ∧
      temp'.toNat = (nats chunk).foldl (fun n x => n * 256 ^ t.bytes + x) p * 256 ^ t.bytes := by
  induction chunk generalizing p left temp with
  | nil => exact ⟨temp, rfl, htemp⟩
  | cons c chunk ih =>
    rw [List.length_cons] at hlen
    obtain ⟨hword, hpos, -, -⟩ := t.bytes_perWord
    have hc : c.toNat < 256 ^ t.bytes := by
      rw [pow_bytes]
      exact c.isLt
    have hnext : p * 256 ^ t.bytes + c.toNat < 256 ^ (t.bytes * (t.perWord - (left - 1))) := by
      have hexp : t.bytes * (t.perWord - (left - 1)) = t.bytes * (t.perWord - left) + t.bytes := by
        rw [show t.perWord - (left - 1) = t.perWord - left + 1 by omega, Nat.mul_add, Nat.mul_one]
      have hle := Nat.mul_le_mul_right (256 ^ t.bytes) hp
      rw [hexp, pow_add]
      rw [Nat.succ_mul] at hle
      omega
    have hfree : (p * 256 ^ t.bytes + c.toNat) * 256 ^ t.bytes < 256 ^ 16 := by
      have hle : t.bytes * (t.perWord - (left - 1)) + t.bytes ≤ 16 := by
        rw [← hword, ← Nat.mul_succ]
        exact Nat.mul_le_mul_left _ (by omega)
      calc (p * 256 ^ t.bytes + c.toNat) * 256 ^ t.bytes
          < 256 ^ (t.bytes * (t.perWord - (left - 1))) * 256 ^ t.bytes :=
            Nat.mul_lt_mul_of_pos_right hnext (base_pos _)
        _ = 256 ^ (t.bytes * (t.perWord - (left - 1)) + t.bytes) := (pow_add _ _ _).symm
        _ ≤ 256 ^ 16 := Nat.pow_le_pow_right (by decide) hle
    have hor := or_word htemp c
    have hshift : ((temp ||| c.setWidth 128) <<< (8 * t.bytes)).toNat =
        (p * 256 ^ t.bytes + c.toNat) * 256 ^ t.bytes := by
      rw [shl_word (by rw [hor]; exact hfree), hor]
    obtain ⟨temp', heq, htemp'⟩ := ih (by omega : _ < left - 1) (by omega) hnext hshift
    refine ⟨temp', ?_, htemp'⟩
    rw [List.cons_append, setFromWords, if_pos (by omega), heq, List.length_cons]
    congr 1
    omega

/-- `temp` as a number, in a new word. -/
theorem eq_ofNat {v : Word} {n : Nat} (h : v.toNat = n) : v = BitVec.ofNat 128 n := by
  rw [← h, BitVec.ofNat_toNat, BitVec.setWidth_eq]

/-- Words that fill the word: it is stored. -/
theorem setFromWords_full {chunk ws : List (BitVec (8 * t.bytes))} {itr : Nat}
    {key : FixedBytes size} (hlen : chunk.length = t.perWord) :
    setFromWords t (chunk ++ ws) itr 0 t.perWord key =
      storeWord key itr (BitVec.ofNat 128 (pack t.bytes (nats chunk))) >>=
        setFromWords t ws (itr + 1) 0 t.perWord := by
  obtain ⟨-, -, -, hper⟩ := t.bytes_perWord
  obtain ⟨init, c, rfl⟩ : ∃ init c, chunk = init ++ [c] :=
    ⟨chunk.dropLast, chunk.getLast (List.ne_nil_of_length_pos (by omega)),
      (List.dropLast_append_getLast _).symm⟩
  rw [List.length_append, List.length_singleton] at hlen
  have hzero : (0 : Word).toNat = 0 * 256 ^ t.bytes := (Nat.zero_mul _).symm
  obtain ⟨temp, heq, htemp⟩ := setFromWords_part (c :: ws) itr key
    (by omega : init.length < t.perWord) (Nat.le_refl _) (base_pos _) hzero
  have hlast : t.perWord - init.length = 1 := by omega
  have hword : temp ||| c.setWidth 128 = BitVec.ofNat 128 (pack t.bytes (nats (init ++ [c]))) := by
    refine eq_ofNat ?_
    rw [or_word htemp, nats_append]
    exact (pack_append_singleton _ _ _).symm
  rw [List.append_assoc, List.singleton_append, heq, hlast, setFromWords, if_neg (by decide), check_bind,
    if_pos (by decide), hword]

/-- The word of a sequence that ends early. -/
def lastWord (t : SubWord) (ws : List Nat) : Nat :=
  pack t.bytes ws * 256 ^ (t.bytes + (t.perWord - ws.length - 1))

/-- It is not moved up too far. -/
theorem shift_le {k : Nat} (hk : k < t.perWord) :
    t.bytes * k + (t.bytes + (t.perWord - k - 1)) ≤ 16 := by
  cases t with
  | uint8 | uint16 | uint32 | uint64 =>
    simp only [FixedBytes.SubWord.perWord, FixedBytes.SubWord.bytes] at hk ⊢
    omega

theorem lastWord_lt {ws : List Nat} (h : ∀ x ∈ ws, x < 256 ^ t.bytes) (hlen : ws.length < t.perWord) :
    lastWord t ws < 256 ^ 16 := by
  rw [lastWord]
  calc pack t.bytes ws * 256 ^ (t.bytes + (t.perWord - ws.length - 1))
      < 256 ^ (t.bytes * ws.length) * 256 ^ (t.bytes + (t.perWord - ws.length - 1)) :=
        Nat.mul_lt_mul_of_pos_right (pack_lt h) (base_pos _)
    _ = 256 ^ (t.bytes * ws.length + (t.bytes + (t.perWord - ws.length - 1))) := (pow_add _ _ _).symm
    _ ≤ 256 ^ 16 := Nat.pow_le_pow_right (by decide) (shift_le hlen)

/-- Words that end early: the word is moved up, and stored. -/
theorem setFromWords_last {part : List (BitVec (8 * t.bytes))} {itr : Nat} {key : FixedBytes size}
    (hpos : part ≠ []) (hlen : part.length < t.perWord) :
    setFromWords t part itr 0 t.perWord key =
      storeWord key itr (BitVec.ofNat 128 (lastWord t (nats part))) := by
  have hk := List.length_pos_of_ne_nil hpos
  have hzero : (0 : Word).toNat = 0 * 256 ^ t.bytes := (Nat.zero_mul _).symm
  obtain ⟨temp, heq, htemp⟩ := setFromWords_part [] itr key hlen (Nat.le_refl _)
    (base_pos _) hzero
  change _ = pack t.bytes (nats part) * _ at htemp
  have hlt := lastWord_lt (nats_lt part) (by rwa [nats_length])
  rw [lastWord, nats_length, pow_add, ← Nat.mul_assoc, ← htemp] at hlt
  have hword : (if 1 < t.perWord - part.length then temp <<< (8 * (t.perWord - part.length - 1))
      else temp) = BitVec.ofNat 128 (lastWord t (nats part)) := by
    refine eq_ofNat ?_
    rw [lastWord, nats_length, pow_add, ← Nat.mul_assoc, ← htemp]
    split
    · exact shl_word hlt
    · rw [show t.perWord - part.length - 1 = 0 by omega, pow_zero, Nat.mul_one]
  rw [List.append_nil] at heq
  rw [heq, setFromWords, if_pos (by omega), hword]

/-- The words that are stored: `q` full ones, and one for those that are left. -/
def stored (t : SubWord) : Nat → List Nat → List Nat
  | 0, ws => if ws = [] then [] else [lastWord t ws]
  | q + 1, ws => pack t.bytes (ws.take t.perWord) :: stored t q (ws.drop t.perWord)

/-- `f` stores the words from `itr` on, and keeps the others. -/
def Stores (f : FixedBytes size → Exec (FixedBytes size)) (itr : Nat) (ws : List Word) : Prop :=
  ∀ key, ∃ key', f key = .ok key' ∧
    key'.toList = key.toList.take itr ++ ws ++ key.toList.drop (itr + ws.length)

theorem stores_nil (itr : Nat) : Stores (pure : FixedBytes size → _) itr [] :=
  fun key => ⟨key, rfl, by simp⟩

theorem take_succ_set {l : List Word} {i : Nat} (h : i < l.length) (w : Word) :
    (l.set i w).take (i + 1) = l.take i ++ [w] := by
  rw [List.take_succ_eq_append_getElem (by rwa [List.length_set]), List.getElem_set_self,
    List.take_set_of_le (Nat.le_refl i)]

/-- A word, and those behind it. -/
theorem stores_cons {f : FixedBytes size → Exec (FixedBytes size)} {itr : Nat} {w : Word}
    {ws : List Word} (hitr : itr < numWords size) (h : Stores f (itr + 1) ws) :
    Stores (fun key => storeWord key itr w >>= f) itr (w :: ws) := by
  intro key
  obtain ⟨key', hkey, hlist⟩ := h (key.set ⟨itr, hitr⟩ w)
  have hlength : itr < key.toList.length := by rwa [List.Vector.toList_length]
  have hset : (key.set ⟨itr, hitr⟩ w).toList = key.toList.set itr w := List.Vector.toList_set _ _ _
  have hstore : storeWord key itr w = .ok (key.set ⟨itr, hitr⟩ w) := dif_pos hitr
  refine ⟨key', ?_, ?_⟩
  · change storeWord key itr w >>= f = _
    rw [hstore, ok_bind, hkey]
  · rw [hlist, hset, take_succ_set hlength, List.drop_set_of_lt (by omega), List.length_cons,
      Nat.add_right_comm, Nat.add_assoc itr]
    simp

theorem stores_storeWord {itr : Nat} (hitr : itr < numWords size) (w : Word) :
    Stores (fun key : FixedBytes size => storeWord key itr w) itr [w] := by
  have h := stores_cons (w := w) hitr (stores_nil (itr + 1))
  simpa only [bind_pure] using h

/-- At the end of a word nothing is left to store. -/
theorem setFromWords_done {itr left : Nat} {temp : Word} (h : left = t.perWord) :
    (setFromWords t [] itr temp left : FixedBytes size → _) = pure := by
  funext key
  rw [setFromWords, if_neg (not_not.2 h)]

/-- **The words stored.** -/
theorem setFromWords_stores {q k itr : Nat} {words : List (BitVec (8 * t.bytes))}
    (hk : k < t.perWord) (hlen : words.length = q * t.perWord + k)
    (hfit : itr + (stored t q (nats words)).length ≤ numWords size) :
    Stores (setFromWords t words itr 0 t.perWord : FixedBytes size → _) itr
      ((stored t q (nats words)).map (BitVec.ofNat 128)) := by
  induction q generalizing words itr with
  | zero =>
    by_cases hnil : words = []
    · rw [hnil, setFromWords_done rfl]
      exact stores_nil itr
    · have hne : nats words ≠ [] := fun h => hnil (List.map_eq_nil_iff.1 h)
      have hone : (setFromWords t words itr 0 t.perWord : FixedBytes size → _) =
          fun key => storeWord key itr (BitVec.ofNat 128 (lastWord t (nats words))) :=
        funext fun key => setFromWords_last hnil (by omega)
      rw [stored, if_neg hne, List.length_singleton] at hfit
      rw [stored, if_neg hne, hone]
      exact stores_storeWord (by omega) _
  | succ q ih =>
    have hchunk : (words.take t.perWord).length = t.perWord := by
      rw [List.length_take, hlen, Nat.succ_mul]
      omega
    have hrest : (words.drop t.perWord).length = q * t.perWord + k := by
      rw [List.length_drop, hlen, Nat.succ_mul]
      omega
    have htake : (nats words).take t.perWord = nats (words.take t.perWord) := List.map_take.symm
    have hdrop : (nats words).drop t.perWord = nats (words.drop t.perWord) := List.map_drop.symm
    rw [stored, htake, hdrop, List.length_cons] at hfit
    have hstep : (setFromWords t words itr 0 t.perWord : FixedBytes size → _) = fun key =>
        storeWord key itr (BitVec.ofNat 128 (pack t.bytes (nats (words.take t.perWord)))) >>=
          setFromWords t (words.drop t.perWord) (itr + 1) 0 t.perWord := by
      funext key
      rw [← setFromWords_full hchunk, List.take_append_drop]
    rw [stored, htake, hdrop, List.map_cons, hstep]
    exact stores_cons (by omega) (ih hrest (by omega))

/-- A byte, as a word of the sequence. -/
def byteWord (b : UInt8) : BitVec (8 * SubWord.uint8.bytes) := b.toBitVec

theorem byteWord_setWidth (b : UInt8) : (byteWord b).setWidth 128 = BitVec.ofNat 128 b.toNat :=
  (BitVec.ofNat_toNat 128 (byteWord b)).symm

/-- For bytes, these are the words of the constructor from an array of bytes. -/
theorem setFromWords_byteArray (arr : List UInt8) {itr left : Nat} (temp : Word) (hleft : 1 ≤ left)
    (hfit : itr + (setFromWordSequence arr temp left).length ≤ numWords size) :
    Stores (setFromWords .uint8 (arr.map byteWord) itr temp left : FixedBytes size → _) itr
      (setFromWordSequence arr temp left) := by
  have hper : SubWord.uint8.perWord = 16 := rfl
  induction arr generalizing itr left temp with
  | nil =>
    rw [setFromWordSequence] at hfit ⊢
    by_cases hstart : left = 16
    · rw [if_neg (not_not.2 hstart), List.map_nil, setFromWords_done (hstart.trans hper.symm)]
      exact stores_nil itr
    · rw [if_pos hstart, List.length_singleton] at hfit
      have hone : (setFromWords .uint8 [] itr temp left : FixedBytes size → _) = fun key =>
          storeWord key itr (if 1 < left then temp <<< (8 * (left - 1)) else temp) := by
        funext key
        rw [setFromWords, hper, if_pos hstart]
      rw [if_pos hstart, List.map_nil, hone]
      exact stores_storeWord (by omega) _
  | cons b arr ih =>
    rw [setFromWordSequence] at hfit ⊢
    by_cases hmore : 1 < left
    · rw [if_pos hmore] at hfit ⊢
      have hstep : (setFromWords .uint8 ((b :: arr).map byteWord) itr temp left :
          FixedBytes size → _) = setFromWords .uint8 (arr.map byteWord) itr
            ((temp ||| BitVec.ofNat 128 b.toNat) <<< 8) (left - 1) := by
        funext key
        rw [List.map_cons, setFromWords, if_pos hmore, byteWord_setWidth]
        rfl
      rw [hstep]
      exact ih _ (by omega) hfit
    · have hone : left = 1 := by omega
      rw [if_neg hmore, List.length_cons] at hfit
      have hstep : (setFromWords .uint8 ((b :: arr).map byteWord) itr temp left :
          FixedBytes size → _) = fun key => storeWord key itr (temp ||| BitVec.ofNat 128 b.toNat) >>=
            setFromWords .uint8 (arr.map byteWord) (itr + 1) 0 16 := by
        funext key
        rw [List.map_cons, setFromWords, if_neg hmore, check_bind, if_pos (decide_eq_true hone),
          byteWord_setWidth, hper]
      rw [if_neg hmore, hstep]
      exact stores_cons (by omega) (ih _ (by decide) (by omega))

theorem setFromWordSequence_length {arr : List UInt8} {temp : Word} {left : Nat} (hpos : 1 ≤ left)
    (hleft : left ≤ 16) :
    (setFromWordSequence arr temp left).length = (arr.length + (16 - left) + 15) / 16 := by
  induction arr generalizing left temp with
  | nil =>
    rw [setFromWordSequence, List.length_nil]
    split
    · rw [List.length_singleton]
      omega
    · rw [List.length_nil]
      omega
  | cons b arr ih =>
    rw [setFromWordSequence, List.length_cons]
    split
    · rw [ih (by omega) (by omega)]
      omega
    · rw [List.length_cons, ih (by decide) (by decide)]
      omega

/-- **The constructor from an array of bytes**, which stores all the words. -/
theorem ofStdArray_bytes (memory : FixedBytes size) {arr : List UInt8} (h : arr.length = size) :
    ofStdArray memory .uint8 (arr.map byteWord) = .ok (ofByteArray size arr) := by
  have hlength : (setFromWordSequence arr 0 16).length = numWords size := by
    rw [setFromWordSequence_length (by decide) (by decide), h, numWords]
    rfl
  obtain ⟨key, hkey, hlist⟩ := setFromWords_byteArray arr 0 (by decide : 1 ≤ 16)
    (by rw [hlength, Nat.zero_add]) memory
  rw [hlength, List.take_zero, List.nil_append, Nat.zero_add, List.drop_of_length_le
    (by rw [List.Vector.toList_length]), List.append_nil] at hlist
  have hresize : ofByteArray size arr = key := by
    rw [ofByteArray, ← hlist, Implements.resize_toList]
  rw [hresize]
  exact hkey

/-! ## The bytes of an object -/

theorem wordBytes_eq (k : Nat) (w : Word) : wordBytes k w = bytes k w.toNat := by
  induction k generalizing w with
  | zero => rfl
  | succ k ih =>
    have hbyte : UInt8.ofNat (w &&& 0xff).toNat = UInt8.ofNat w.toNat := by
      rw [← UInt8.toNat_inj, Implements.lowByte_toNat, UInt8.toNat_ofNat']
    rw [wordBytes, bytes_succ, ih, hbyte, BitVec.toNat_ushiftRight, Nat.shiftRight_eq_div_pow]

/-- The bytes of the words, with those of the padding. -/
def dataBytes (ws : List Word) : List UInt8 := ws.flatMap fun w => bytes 16 w.toNat

theorem dataBytes_length (ws : List Word) : (dataBytes ws).length = 16 * ws.length := by
  simp [dataBytes, List.length_flatMap, Nat.mul_comm]

theorem dataBytes_cons (w : Word) (ws : List Word) :
    dataBytes (w :: ws) = bytes 16 w.toNat ++ dataBytes ws := List.flatMap_cons

theorem dataBytes_append (a b : List Word) : dataBytes (a ++ b) = dataBytes a ++ dataBytes b :=
  List.flatMap_append

/-- **The bytes extracted** are all but the padding. -/
theorem extractLoop_eq {padded : Nat} (hp : padded ≤ 15) (ws : List Word) :
    extractLoop padded ws = (dataBytes ws).take (16 * ws.length - padded) := by
  induction ws with
  | nil => exact List.take_nil.symm
  | cons w ws ih =>
    rw [dataBytes_cons, List.length_cons]
    cases ws with
    | nil =>
      have hsplit : bytes 16 w.toNat =
          bytes (16 - padded) (w.toNat / 256 ^ padded) ++ bytes padded w.toNat := by
        rw [← bytes_add, Nat.sub_add_cancel (by omega)]
      have hempty : dataBytes [] = [] := rfl
      rw [extractLoop, wordBytes_eq, BitVec.toNat_ushiftRight, Nat.shiftRight_eq_div_pow, ← pow_bytes,
        hempty, List.append_nil, hsplit, List.length_nil, Nat.zero_add, Nat.mul_one,
        List.take_left' (bytes_length _ _)]
    | cons w' ws =>
      have hlong : 16 * ((w' :: ws).length + 1) - padded = 16 + (16 * (w' :: ws).length - padded) := by
        rw [List.length_cons]
        omega
      have hfront : (bytes 16 w.toNat).take (16 + (16 * (w' :: ws).length - padded)) = bytes 16 w.toNat :=
        List.take_of_length_le (by rw [bytes_length]; exact Nat.le_add_right _ _)
      rw [extractLoop, ih, wordBytes_eq, hlong, List.take_append, bytes_length, Nat.add_sub_cancel_left,
        hfront]
      exact List.cons_ne_nil _ _

theorem extract_eq (d : FixedBytes size) : d.extractAsByteArray = (dataBytes d.toList).take size := by
  rw [extractAsByteArray, extractLoop_eq (Implements.paddedBytes_le size), List.Vector.toList_length]
  congr 1
  rw [paddedBytes, numWords]
  omega

/-- The bytes of the words that are stored: those of the full ones, and of the last. -/
theorem stored_bytes {q : Nat} {ws : List Nat} (h : ∀ x ∈ ws, x < 256 ^ t.bytes)
    (hlen : q * t.perWord ≤ ws.length) :
    (stored t q ws).flatMap (bytes 16) = (ws.take (q * t.perWord)).flatMap (bytes t.bytes) ++
      (stored t 0 (ws.drop (q * t.perWord))).flatMap (bytes 16) := by
  induction q generalizing ws with
  | zero => simp
  | succ q ih =>
    rw [Nat.succ_mul] at hlen ⊢
    have hchunk : (ws.take t.perWord).length = t.perWord := by
      rw [List.length_take]
      omega
    have hfull := bytes_pack fun x (hx : x ∈ ws.take t.perWord) => h x (List.mem_of_mem_take hx)
    rw [hchunk, t.bytes_perWord.1] at hfull
    have hrest := ih (fun x hx => h x (List.mem_of_mem_drop hx))
      (by rw [List.length_drop]; omega : q * t.perWord ≤ (ws.drop t.perWord).length)
    have hstored : stored t (q + 1) ws =
        pack t.bytes (ws.take t.perWord) :: stored t q (ws.drop t.perWord) := rfl
    rw [hstored, List.flatMap_cons, hfull, hrest, ← List.append_assoc, ← List.flatMap_append,
      List.drop_drop, Nat.add_comm (q * t.perWord), List.take_add]

theorem bytes_ofNat (n : Nat) : bytes 16 (BitVec.ofNat 128 n).toNat = bytes 16 n := by
  have hpow : 2 ^ 128 = 256 ^ 16 := pow_bytes 16 |>.symm
  exact bytes_inj.2 (by rw [BitVec.toNat_ofNat, hpow, Nat.mod_mod])

theorem dataBytes_ofNat (ns : List Nat) :
    dataBytes (ns.map (BitVec.ofNat 128)) = ns.flatMap (bytes 16) := by
  induction ns with
  | nil => rfl
  | cons n ns ih => rw [List.map_cons, dataBytes_cons, bytes_ofNat, ih, List.flatMap_cons]

/-! ## The last word -/

/-- The words are bytes, or the last word lacks no more than one, or there is nothing in it. -/
def Justified (t : SubWord) (ws : List Nat) : Prop :=
  t.bytes = 1 ∨ ws.length = t.perWord - 1 ∨ ∀ x ∈ ws, x = 0

section
variable {ws : List Nat} (hlen : ws.length < t.perWord)
include hlen

theorem bytes_left : t.bytes * ws.length + t.bytes * (t.perWord - ws.length) = 16 := by
  rw [← Nat.mul_add, Nat.add_sub_cancel' hlen.le, t.bytes_perWord.1]

/-- What the last shift falls short of. -/
theorem shift_short : t.bytes * (t.perWord - ws.length) =
    t.bytes + (t.perWord - ws.length - 1) + (t.bytes - 1) * (t.perWord - ws.length - 1) := by
  obtain ⟨v, hv⟩ : ∃ v, t.bytes = v + 1 := ⟨t.bytes - 1, by have := t.bytes_perWord; omega⟩
  obtain ⟨j, hj⟩ : ∃ j, t.perWord - ws.length = j + 1 := ⟨t.perWord - ws.length - 1, by omega⟩
  rw [hv, hj, Nat.add_sub_cancel, Nat.add_sub_cancel]
  ring

theorem justified_iff : Justified t ws ↔
    pack t.bytes ws = 0 ∨ (t.bytes - 1) * (t.perWord - ws.length - 1) = 0 := by
  have hpos := t.bytes_perWord
  rw [Justified, pack_eq_zero_iff, Nat.mul_eq_zero, Nat.sub_eq_zero_iff_le, Nat.sub_eq_zero_iff_le]
  constructor
  · intro hj
    rcases hj with h | h | h
    · exact .inr (.inl h.le)
    · exact .inr (.inr (by omega))
    · exact .inl h
  · intro hshift
    rcases hshift with h | h | h
    · exact .inr (.inr h)
    · exact .inl (by omega)
    · exact .inr (.inl (by omega))

theorem lastWord_of_justified (h : Justified t ws) :
    lastWord t ws = pack t.bytes ws * 256 ^ (t.bytes * (t.perWord - ws.length)) := by
  rw [lastWord, shift_short hlen]
  rcases (justified_iff hlen).1 h with hzero | hshort
  · rw [hzero, Nat.zero_mul, Nat.zero_mul]
  · rw [hshort, Nat.add_zero]

/-- The words come out at the top only of a last word that is justified. -/
theorem justified_of_lastWord
    (h : lastWord t ws / 256 ^ (t.bytes * (t.perWord - ws.length)) = pack t.bytes ws) :
    Justified t ws := by
  rw [lastWord, shift_short hlen, pow_add _ (t.bytes + _), Nat.mul_comm,
    Nat.mul_div_mul_left _ _ (base_pos _), Nat.div_eq_self] at h
  refine (justified_iff hlen).2 (h.imp_right fun hone => ?_)
  exact (Nat.pow_eq_one.1 hone).resolve_left (by decide)

/-- The bytes of the last word: its upper ones, where those of the words belong, and the others. -/
theorem lastWord_bytes : bytes 16 (lastWord t ws) =
    bytes (t.bytes * ws.length) (lastWord t ws / 256 ^ (t.bytes * (t.perWord - ws.length))) ++
      bytes (t.bytes * (t.perWord - ws.length)) (lastWord t ws) := by
  rw [← bytes_add, bytes_left hlen]

theorem stored_fits : t.bytes * ws.length ≤ 16 * (stored t 0 ws).length := by
  by_cases hnil : ws = []
  · rw [hnil, List.length_nil, Nat.mul_zero]
    exact Nat.zero_le _
  · rw [stored, if_neg hnil, List.length_singleton, Nat.mul_one, ← bytes_left hlen]
    exact Nat.le_add_right _ _

/-- The bytes of a last word that is justified, and no others. -/
theorem stored_of_justified (h : ∀ x ∈ ws, x < 256 ^ t.bytes) (hj : Justified t ws) :
    (stored t 0 ws).flatMap (bytes 16) = ws.flatMap (bytes t.bytes) ++
      List.replicate (16 * (stored t 0 ws).length - t.bytes * ws.length) 0 := by
  by_cases hnil : ws = []
  · rw [hnil]
    rfl
  · have hlow := bytes_mul_pow (t.bytes * ws.length) (t.bytes * (t.perWord - ws.length))
      (pack t.bytes ws)
    rw [bytes_left hlen, bytes_pack h] at hlow
    rw [stored, if_neg hnil, List.flatMap_singleton, lastWord_of_justified hlen hj, hlow,
      List.length_singleton, Nat.mul_one, Nat.sub_eq_of_eq_add' (bytes_left hlen).symm]

theorem justified_of_stored (h : ∀ x ∈ ws, x < 256 ^ t.bytes)
    (htake : ((stored t 0 ws).flatMap (bytes 16)).take (t.bytes * ws.length) =
      ws.flatMap (bytes t.bytes)) : Justified t ws := by
  by_cases hnil : ws = []
  · exact .inr (.inr (by simp [hnil]))
  · rw [stored, if_neg hnil, List.flatMap_singleton, lastWord_bytes hlen,
      List.take_left' (bytes_length _ _), ← bytes_pack h, bytes_inj] at htake
    refine justified_of_lastWord hlen ?_
    have hupper : lastWord t ws / 256 ^ (t.bytes * (t.perWord - ws.length)) <
        256 ^ (t.bytes * ws.length) := by
      refine Nat.div_lt_of_lt_mul ?_
      rw [← pow_add, Nat.add_comm, bytes_left hlen]
      exact lastWord_lt h hlen
    rwa [Nat.mod_eq_of_lt hupper, Nat.mod_eq_of_lt (pack_lt h)] at htake

end

/-! ## The bytes of the sequence -/

theorem stored_length {q : Nat} {ws : List Nat} (hlen : q * t.perWord ≤ ws.length) :
    (stored t q ws).length = q + (stored t 0 (ws.drop (q * t.perWord))).length := by
  induction q generalizing ws with
  | zero => simp
  | succ q ih =>
    rw [Nat.succ_mul] at hlen ⊢
    have hstored : stored t (q + 1) ws =
        pack t.bytes (ws.take t.perWord) :: stored t q (ws.drop t.perWord) := rfl
    rw [hstored, List.length_cons, ih (by rw [List.length_drop]; omega), List.drop_drop,
      Nat.add_comm (q * t.perWord)]
    omega

/-- The words of the object that are stored, by the number of those of the sequence. -/
def limbs (t : SubWord) (n : Nat) : Nat := (n + t.perWord - 1) / t.perWord

theorem stored_limbs (ws : List Nat) :
    (stored t (ws.length / t.perWord) ws).length = limbs t ws.length := by
  obtain ⟨-, -, -, hper⟩ := t.bytes_perWord
  have hdiv := Nat.div_add_mod ws.length t.perWord
  have hmod := Nat.mod_lt ws.length (show 0 < t.perWord by omega)
  have hdrop : (ws.drop (ws.length / t.perWord * t.perWord)).length = ws.length % t.perWord := by
    rw [List.length_drop, Nat.mul_comm]
    omega
  rw [stored_length (Nat.div_mul_le_self _ _), limbs]
  by_cases hnil : ws.drop (ws.length / t.perWord * t.perWord) = []
  · have hceil : (ws.length + t.perWord - 1) / t.perWord = ws.length / t.perWord := by
      refine Nat.div_eq_of_lt_le ?_ ?_
      · rw [Nat.mul_comm]
        omega
      · rw [hnil, List.length_nil] at hdrop
        rw [Nat.succ_mul, Nat.mul_comm]
        omega
    rw [hnil, hceil]
    rfl
  · have hrest := List.length_pos_of_ne_nil hnil
    have hceil : (ws.length + t.perWord - 1) / t.perWord = ws.length / t.perWord + 1 := by
      refine Nat.div_eq_of_lt_le ?_ ?_
      · rw [Nat.succ_mul, Nat.mul_comm]
        omega
      · rw [Nat.succ_mul, Nat.succ_mul, Nat.mul_comm]
        omega
    rw [stored, if_neg hnil, hceil, List.length_singleton]

theorem limbs_le {n : Nat} (h : t.bytes * n ≤ size) : limbs t n ≤ numWords size := by
  rw [limbs, numWords]
  cases t with
  | uint8 | uint16 | uint32 | uint64 =>
    simp only [FixedBytes.SubWord.perWord, FixedBytes.SubWord.bytes] at h ⊢
    omega

theorem flatMap_bytes_length (k : Nat) (ws : List Nat) :
    (ws.flatMap (bytes k)).length = k * ws.length := by
  simp [List.length_flatMap, Nat.mul_comm]

/-- Zeros behind zeros. -/
theorem zeros_iff {z r : Nat} {rest : List UInt8} (h : r ≤ z + rest.length) :
    (List.replicate z 0 ++ rest).take r = List.replicate r 0 ↔ ∀ b ∈ rest.take (r - z), b = 0 := by
  have hlen : ((List.replicate z 0 ++ rest).take r).length = r := by
    rw [List.length_take, List.length_append, List.length_replicate]
    omega
  rw [List.eq_replicate_iff, and_iff_right hlen, List.take_append, List.length_replicate]
  constructor
  · intro hall b hb
    exact hall b (List.mem_append_right _ hb)
  · intro hall b hb
    rcases List.mem_append.1 hb with hb | hb
    · exact List.eq_of_mem_replicate (List.mem_of_mem_take hb)
    · exact hall b hb

/-- The last word, and those that nothing is stored to. -/
theorem last_iff {ws : List Nat} (hlen : ws.length < t.perWord) (h : ∀ x ∈ ws, x < 256 ^ t.bytes)
    {rest : List UInt8} {r : Nat}
    (hr : r ≤ 16 * (stored t 0 ws).length - t.bytes * ws.length + rest.length) :
    ((stored t 0 ws).flatMap (bytes 16) ++ rest).take (t.bytes * ws.length + r) =
        ws.flatMap (bytes t.bytes) ++ List.replicate r 0 ↔
      Justified t ws ∧
        ∀ b ∈ rest.take (r - (16 * (stored t 0 ws).length - t.bytes * ws.length)), b = 0 := by
  have hfront := flatMap_bytes_length t.bytes ws
  have htotal := flatMap_bytes_length 16 (stored t 0 ws)
  have hfits := stored_fits hlen
  have hgiven : ∀ hj : Justified t ws,
      ((stored t 0 ws).flatMap (bytes 16) ++ rest).take (t.bytes * ws.length + r) =
        ws.flatMap (bytes t.bytes) ++ List.replicate r 0 ↔
      ∀ b ∈ rest.take (r - (16 * (stored t 0 ws).length - t.bytes * ws.length)), b = 0 := by
    intro hj
    rw [stored_of_justified hlen h hj, List.append_assoc, ← hfront, List.take_length_add_append,
      List.append_cancel_left_eq, hfront, zeros_iff hr]
  constructor
  · intro heq
    have hj : Justified t ws := by
      refine justified_of_stored hlen h ?_
      have hprefix := congrArg (List.take (t.bytes * ws.length)) heq
      rwa [List.take_take, Nat.min_eq_left (Nat.le_add_right _ _), List.take_left' hfront,
        List.take_append_of_le_length (by rw [htotal]; exact hfits)] at hprefix
    exact ⟨hj, (hgiven hj).1 heq⟩
  · intro hright
    obtain ⟨hj, hzero⟩ := hright
    exact (hgiven hj).2 hzero

/-- All the words, and those that nothing is stored to. -/
theorem stored_iff {q k : Nat} {ws : List Nat} (h : ∀ x ∈ ws, x < 256 ^ t.bytes) (hk : k < t.perWord)
    (hlen : ws.length = q * t.perWord + k) (hsize : t.bytes * ws.length ≤ size) {rest : List UInt8}
    (hrest : size ≤ 16 * (stored t q ws).length + rest.length) :
    ((stored t q ws).flatMap (bytes 16) ++ rest).take size =
        ws.flatMap (bytes t.bytes) ++ List.replicate (size - t.bytes * ws.length) 0 ↔
      Justified t (ws.drop (q * t.perWord)) ∧
        ∀ b ∈ rest.take (size - 16 * (stored t q ws).length), b = 0 := by
  have hfull : q * t.perWord ≤ ws.length := by omega
  have hpart : (ws.drop (q * t.perWord)).length = k := by
    rw [List.length_drop]
    omega
  have hbytes : t.bytes * ws.length = 16 * q + t.bytes * k := by
    rw [hlen, Nat.mul_add, Nat.mul_left_comm, t.bytes_perWord.1, Nat.mul_comm q]
  have hfits := stored_fits (t := t) (hpart.trans_lt hk)
  rw [stored_length hfull] at hrest ⊢
  rw [hpart] at hfits
  have hlast := last_iff (hpart.trans_lt hk) (fun x hx => h x (List.mem_of_mem_drop hx))
    (by rw [hpart]; omega : size - t.bytes * ws.length ≤ _ + rest.length)
  rw [hpart] at hlast
  have hbehind : size - t.bytes * ws.length -
      (16 * (stored t 0 (ws.drop (q * t.perWord))).length - t.bytes * k) =
        size - 16 * (q + (stored t 0 (ws.drop (q * t.perWord))).length) := by omega
  have hfront : ((ws.take (q * t.perWord)).flatMap (bytes t.bytes)).length = 16 * q := by
    rw [flatMap_bytes_length, List.length_take, Nat.min_eq_left hfull, Nat.mul_left_comm,
      t.bytes_perWord.1, Nat.mul_comm]
  have hwords : ws.flatMap (bytes t.bytes) = (ws.take (q * t.perWord)).flatMap (bytes t.bytes) ++
      (ws.drop (q * t.perWord)).flatMap (bytes t.bytes) := by
    rw [← List.flatMap_append, List.take_append_drop]
  have htake : ∀ l : List UInt8,
      l.take size = l.take (16 * q + (t.bytes * k + (size - t.bytes * ws.length))) :=
    fun l => congrArg (fun n => l.take n) (by omega)
  rw [stored_bytes h hfull, hwords, htake, List.append_assoc, List.append_assoc, ← hfront,
    List.take_length_add_append, List.append_cancel_left_eq, hlast, hbehind]

/-! ## Construction -/

/-- The bytes of the words, and zeros up to those of the object. -/
def expected (size : Nat) (t : SubWord) (words : List (BitVec (8 * t.bytes))) : List UInt8 :=
  (nats words).flatMap (bytes t.bytes) ++ List.replicate (size - t.bytes * words.length) 0

/-- An object is made, and these are its bytes. -/
def Extracts (r : Exec (FixedBytes size)) (arr : List UInt8) : Prop :=
  ∃ d, r = .ok d ∧ d.extractAsByteArray = arr

/-- What the words that are left for the last word of the object are. -/
def LeftJustified (t : SubWord) (words : List (BitVec (8 * t.bytes))) : Prop :=
  t.bytes = 1 ∨ words.length % t.perWord = t.perWord - 1 ∨
    ∀ w ∈ words.drop (words.length / t.perWord * t.perWord), w = 0

section
variable {words : List (BitVec (8 * t.bytes))} (h : t.bytes * words.length ≤ size)

theorem rest_length : (words.drop (words.length / t.perWord * t.perWord)).length =
    words.length % t.perWord := by
  have hdiv := Nat.div_add_mod' words.length t.perWord
  rw [List.length_drop]
  omega

theorem leftJustified_iff : LeftJustified t words ↔
    Justified t ((nats words).drop (words.length / t.perWord * t.perWord)) := by
  have hdrop : (nats words).drop (words.length / t.perWord * t.perWord) =
      nats (words.drop (words.length / t.perWord * t.perWord)) := List.map_drop.symm
  have hzero : ∀ l : List (BitVec (8 * t.bytes)), (∀ x ∈ nats l, x = 0) ↔ ∀ w ∈ l, w = 0 := by
    intro l
    simp [nats, ← BitVec.toNat_inj]
  rw [LeftJustified, Justified, hdrop, nats_length, rest_length, hzero]

include h

/-- **When the bytes are those of the words**: also the words that nothing is stored to are zero. -/
theorem setFromWords_iff (memory : FixedBytes size) :
    Extracts (setFromWords t words 0 0 t.perWord memory) (expected size t words) ↔
      LeftJustified t words ∧ ∀ b ∈ (dataBytes (memory.toList.drop (limbs t words.length))).take
        (size - 16 * limbs t words.length), b = 0 := by
  obtain ⟨-, -, -, hper⟩ := t.bytes_perWord
  have hmod := Nat.mod_lt words.length (show t.perWord > 0 by omega)
  have hdiv := (Nat.div_add_mod' words.length t.perWord).symm
  have hle := limbs_le h
  have hstored := stored_limbs (t := t) (nats words)
  rw [nats_length] at hstored
  obtain ⟨d, hd, hlist⟩ := setFromWords_stores hmod hdiv (by rwa [hstored, Nat.zero_add]) memory
  have hextracts : Extracts (setFromWords t words 0 0 t.perWord memory) (expected size t words) ↔
      d.extractAsByteArray = expected size t words := by
    rw [Extracts, hd]
    simp
  have hcovers : size ≤ 16 * (stored t (words.length / t.perWord) (nats words)).length +
      (dataBytes (memory.toList.drop (limbs t words.length))).length := by
    rw [hstored, dataBytes_length, List.length_drop, List.Vector.toList_length, ← Nat.mul_add,
      Nat.add_sub_cancel' hle, numWords]
    omega
  have hiff := stored_iff (nats_lt words) hmod ((nats_length words).trans hdiv)
    (by rwa [nats_length]) hcovers
  rw [nats_length, hstored, ← leftJustified_iff] at hiff
  rw [List.take_zero, List.nil_append, Nat.zero_add, List.length_map, hstored] at hlist
  rw [hextracts, extract_eq, hlist, dataBytes_append, dataBytes_ofNat, expected, hiff]

end

/-- Memory that is zero is left so. -/
theorem zero_memory (n : Nat) :
    ∀ b ∈ dataBytes ((List.Vector.replicate (numWords size) (0 : Word)).toList.drop n), b = 0 := by
  intro b hb
  obtain ⟨w, hw, hb⟩ := List.mem_flatMap.1 hb
  have hzero : w = 0 := List.eq_of_mem_replicate (List.mem_of_mem_drop hw)
  have hbytes : bytes 16 (0 : Word).toNat = List.replicate 16 0 := bytes_zero 16
  rw [hzero, hbytes] at hb
  exact List.eq_of_mem_replicate hb

/-- Memory that is not is seen, where there is a word that nothing is stored to. -/
theorem ones_memory {n : Nat} (hn : 16 * n < size)
    (h : ∀ b ∈ (dataBytes ((List.Vector.replicate (numWords size)
      (BitVec.allOnes 128)).toList.drop n)).take (size - 16 * n), b = 0) : False := by
  have hlt : n < numWords size := by
    rw [numWords]
    omega
  have hdrop : (List.Vector.replicate (numWords size) (BitVec.allOnes 128)).toList.drop n =
      BitVec.allOnes 128 :: List.replicate (numWords size - n - 1) (BitVec.allOnes 128) := by
    change (List.replicate (numWords size) (BitVec.allOnes 128)).drop n = _
    rw [List.drop_replicate, ← List.replicate_succ,
      show numWords size - n - 1 + 1 = numWords size - n by omega]
  have hones : bytes 16 (BitVec.allOnes 128).toNat = 255 :: List.replicate 15 255 := by decide
  obtain ⟨k, hk⟩ : ∃ k, size - 16 * n = k + 1 := ⟨size - 16 * n - 1, by omega⟩
  rw [hdrop, dataBytes_cons, hones, hk, List.cons_append, List.take_succ_cons] at h
  exact absurd (h 255 (List.mem_cons_self ..)) (by decide)

/-- What is expected of every construction from the words, into memory that holds anything. -/
def BuildsBytes (size : Nat) (t : SubWord) (words : List (BitVec (8 * t.bytes))) : Prop :=
  Extracts (makeFromWordSequence size t words) (expected size t words) ∧
    ∀ memory : FixedBytes size, Extracts (ofStdArray memory t words) (expected size t words) ∧
      Extracts (ofCArray memory t words) (expected size t words)

/-- **The bytes are those of the words** where the last word is left-justified by a shift of as many
bytes as it has words left, and, but for `make_from_word_sequence`, every word of the object is stored. -/
theorem fixedWords_iff (size : Nat) (t : SubWord) (words : List (BitVec (8 * t.bytes)))
    (h : t.bytes * words.length ≤ size) :
    (BuildsBytes size t words ↔
      LeftJustified t words ∧ numWords size ≤ limbs t words.length) ∧
    (Extracts (makeFromWordSequence size t words) (expected size t words) ↔ LeftJustified t words) := by
  have hmake : Extracts (makeFromWordSequence size t words) (expected size t words) ↔
      LeftJustified t words := by
    rw [makeFromWordSequence, setFromWords_iff h, and_iff_left]
    exact fun b hb => zero_memory _ b (List.mem_of_mem_take hb)
  have harrays : (∀ memory : FixedBytes size,
      Extracts (ofStdArray memory t words) (expected size t words) ∧
        Extracts (ofCArray memory t words) (expected size t words)) ↔
      LeftJustified t words ∧ numWords size ≤ limbs t words.length := by
    constructor
    · intro hall
      obtain ⟨hj, hrest⟩ := (setFromWords_iff h _).1 (hall (.replicate _ (BitVec.allOnes 128))).1
      refine ⟨hj, ?_⟩
      by_contra hlt
      refine ones_memory ?_ hrest
      rw [numWords] at hlt
      omega
    · intro hright memory
      obtain ⟨hj, hle⟩ := hright
      have hnone : memory.toList.drop (limbs t words.length) = [] :=
        List.drop_of_length_le (by rwa [List.Vector.toList_length])
      have hextracts := (setFromWords_iff h memory).2 ⟨hj, by rw [hnone]; simp [dataBytes]⟩
      exact ⟨hextracts, hextracts⟩
  refine ⟨?_, hmake⟩
  rw [BuildsBytes, hmake, harrays, and_iff_right_of_imp And.left]

theorem fixedWords_five : BuildsBytes 40 .uint64 [1, 2, 3, 4, 5] ∧
    Extracts (makeFromWordSequence 40 .uint64 [1, 2, 3, 4, 5]) (expected 40 .uint64 [1, 2, 3, 4, 5]) := by
  have hj : LeftJustified .uint64 [1, 2, 3, 4, 5] := .inr (.inl rfl)
  obtain ⟨hbuilds, hmake⟩ := fixedWords_iff 40 .uint64 [1, 2, 3, 4, 5] (by decide)
  exact ⟨hbuilds.2 ⟨hj, by decide⟩, hmake.2 hj⟩

theorem misplaced_samples :
    (makeFromWordSequence 20 .uint16 [0x0102]).map extractAsByteArray =
        .ok ([0, 0, 0, 0, 0, 0, 1, 2] ++ List.replicate 12 0) ∧
      ¬ BuildsBytes 20 .uint16 [0x0102] ∧ ¬ BuildsBytes 32 .uint64 [0x0102030405060708] := by
  refine ⟨rfl, ?_, ?_⟩
  · intro hbuilds
    obtain ⟨hmake, -⟩ := hbuilds
    rcases ((setFromWords_iff (by decide) _).1 hmake).1 with h | h | h
    · exact absurd h (by decide)
    · exact absurd h (by decide)
    · exact absurd (h 0x0102 (List.mem_cons_self ..)) (by decide)
  · intro hbuilds
    obtain ⟨-, harrays⟩ := hbuilds
    have h := (harrays (.replicate _ (BitVec.allOnes 128))).1
    exact ones_memory (by decide) ((setFromWords_iff (by decide) _).1 h).2

end Wasmlib
