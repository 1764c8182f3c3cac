import DistributedPrograms.Lib.PathWalk
import DistributedPrograms.Distfs.Os

/-!
# Names as strings

A client sees a name through `to_string_lossy` and sends it back as the bytes of that string.  The
round trip is the identity on strings (`toStringLossy_osStr`), and on the names that are UTF-8.  Any
other name becomes a different one, which is still a name: the ASCII bytes are the same
(`fileName_lossy`).

The decoder is that of the standard library, written out in `Distfs.Os`, and everything here is
about it.

* **ASCII.** `KeepsAscii src out` says that `out` has the ASCII bytes of `src`, in particular no
  separator, no zero and no dot that was not there.  So a name stays a name, and a path keeps its
  components' places.
* **UTF-8.** The encoding of a character is decoded as that character, for each of the four lengths,
  and so a string comes back from its bytes.
* **Paths.** No character goes across a separator, so a path is converted name by name
  (`lossy_renderAbs`), and one name that is no UTF-8 does not disturb its neighbours.

The arithmetic on bytes is shown once, by comparing the bits of a byte with the number it stands
for.
-/

set_option autoImplicit false

namespace DistributedPrograms
namespace Distfs

open UnixPath String

/-! ## Bytes

Between the tests of the decoder, which look at bits, and the ranges of the encodings, which are
about numbers. -/

theorem osStr_ofList (cs : List Char) : osStr (ofList cs) = cs.flatMap utf8EncodeChar := by
  rw [osStr, toUTF8_eq_toByteArray, toByteArray_ofList, List.utf8Encode,
    List.toList_data_toByteArray]

theorem osStr_toStringLossy (n : Path) :
    osStr (toStringLossy n) = (lossyChars n).flatMap utf8EncodeChar :=
  osStr_ofList _

theorem isContinuation_iff (b : UInt8) :
    isContinuation b = true ↔ 128 ≤ b.toNat ∧ b.toNat < 192 := by
  have key : ∀ x : Fin 256,
      isContinuation (UInt8.ofFin x) = true ↔ 128 ≤ x.val ∧ x.val < 192 := by
    decide +kernel
  exact key b.toFin

theorem utf8CharWidth_eq (b : UInt8) : utf8CharWidth b =
    if b.toNat < 128 then 1
    else if b.toNat < 194 then 0
    else if b.toNat < 224 then 2
    else if b.toNat < 240 then 3
    else if b.toNat < 245 then 4
    else 0 := by
  simp only [utf8CharWidth, UInt8.lt_iff_toNat_lt]
  rfl

theorem secondByteOk_iff (b₀ b₁ : UInt8) : secondByteOk b₀ b₁ = true ↔
    (128 ≤ b₁.toNat ∧ b₁.toNat < 192) ∧ (b₀.toNat = 224 → 160 ≤ b₁.toNat) ∧
      (b₀.toNat = 237 → b₁.toNat < 160) ∧ (b₀.toNat = 240 → 144 ≤ b₁.toNat) ∧
      (b₀.toNat = 244 → b₁.toNat < 144) := by
  have hE0 : (0xE0 : UInt8).toNat = 224 := rfl
  have hED : (0xED : UInt8).toNat = 237 := rfl
  have hF0 : (0xF0 : UInt8).toNat = 240 := rfl
  have hF4 : (0xF4 : UInt8).toNat = 244 := rfl
  have hA0 : (0xA0 : UInt8).toNat = 160 := rfl
  have h90 : (0x90 : UInt8).toNat = 144 := rfl
  simp only [secondByteOk, Bool.and_eq_true, isContinuation_iff, Bool.not_eq_true',
    Bool.and_eq_false_imp, beq_iff_eq, decide_eq_false_iff_not, ← UInt8.toNat_inj,
    UInt8.lt_iff_toNat_lt, UInt8.le_iff_toNat_le, hE0, hED, hF0, hF4, hA0, h90]
  omega

theorem toNat_and_mask (b : UInt8) (k : Nat) (m : UInt8) (hm : m.toNat = 2 ^ k - 1) :
    (b &&& m).toNat = b.toNat % 2 ^ k := by
  rw [UInt8.toNat_and, hm]
  exact Nat.and_two_pow_sub_one_eq_mod _ k

theorem toNat_ofNat {v : Nat} (h : v.isValidChar) : (Char.ofNat v).toNat = v := by
  rw [Char.ofNat, dif_pos h]
  rfl

/-! ## Characters of several bytes

One lemma for each length of an encoding.  The first byte tells the length, and the further ones are
continuations. -/

section

variable {b₀ b₁ : UInt8}

theorem toNat_decode_two (hw : utf8CharWidth b₀ = 2) (b₁ : UInt8) :
    (decodeChar (b₀ &&& 0x1F).toNat [b₁]).toNat = b₀.toNat % 32 * 64 + b₁.toNat % 64 ∧
      128 ≤ b₀.toNat % 32 * 64 + b₁.toNat % 64 := by
  rw [utf8CharWidth_eq] at hw
  simp only [decodeChar, List.foldl_cons, List.foldl_nil, toNat_and_mask _ 6 0x3F rfl,
    toNat_and_mask _ 5 0x1F rfl]
  have hb₀ : 194 ≤ b₀.toNat ∧ b₀.toNat < 224 := by
    split_ifs at hw <;> omega
  refine ⟨toNat_ofNat (Or.inl ?_), ?_⟩ <;> omega

theorem toNat_decode_three (hw : utf8CharWidth b₀ = 3) (h₁ : secondByteOk b₀ b₁ = true)
    (b₂ : UInt8) :
    (decodeChar (b₀ &&& 0x0F).toNat [b₁, b₂]).toNat =
        (b₀.toNat % 16 * 64 + b₁.toNat % 64) * 64 + b₂.toNat % 64 ∧
      128 ≤ (b₀.toNat % 16 * 64 + b₁.toNat % 64) * 64 + b₂.toNat % 64 := by
  rw [utf8CharWidth_eq] at hw
  rw [secondByteOk_iff] at h₁
  simp only [decodeChar, List.foldl_cons, List.foldl_nil, toNat_and_mask _ 6 0x3F rfl,
    toNat_and_mask _ 4 0x0F rfl]
  have hb₀ : 224 ≤ b₀.toNat ∧ b₀.toNat < 240 := by
    split_ifs at hw <;> omega
  refine ⟨toNat_ofNat ?_, by omega⟩
  rw [Nat.isValidChar]
  omega

theorem toNat_decode_four (hw : utf8CharWidth b₀ ≠ 0 ∧ utf8CharWidth b₀ ≠ 1 ∧
    utf8CharWidth b₀ ≠ 2 ∧ utf8CharWidth b₀ ≠ 3) (h₁ : secondByteOk b₀ b₁ = true)
    (b₂ b₃ : UInt8) :
    (decodeChar (b₀ &&& 0x07).toNat [b₁, b₂, b₃]).toNat =
        ((b₀.toNat % 8 * 64 + b₁.toNat % 64) * 64 + b₂.toNat % 64) * 64 + b₃.toNat % 64 ∧
      128 ≤ ((b₀.toNat % 8 * 64 + b₁.toNat % 64) * 64 + b₂.toNat % 64) * 64 + b₃.toNat % 64 := by
  rw [utf8CharWidth_eq] at hw
  rw [secondByteOk_iff] at h₁
  simp only [decodeChar, List.foldl_cons, List.foldl_nil, toNat_and_mask _ 6 0x3F rfl,
    toNat_and_mask _ 3 0x07 rfl]
  have hb₀ : 240 ≤ b₀.toNat ∧ b₀.toNat < 245 := by
    split_ifs at hw <;> omega
  refine ⟨toNat_ofNat (Or.inr ?_), ?_⟩ <;> omega

end

/-! ## ASCII

Whatever is replaced is not ASCII, and a replacement has no ASCII byte either. -/

/-- `out` has the ASCII bytes of `src`, and has others if `src` has.  Which others they are, and how
many, is left open. -/
def KeepsAscii (src out : List UInt8) : Prop :=
  out.filter (· < 0x80) = src.filter (· < 0x80) ∧
    ((∀ b ∈ out, b < 0x80) → ∀ b ∈ src, b < 0x80)

theorem KeepsAscii.append {src out src' out' : List UInt8} (h : KeepsAscii src out)
    (h' : KeepsAscii src' out') : KeepsAscii (src ++ src') (out ++ out') := by
  refine ⟨by rw [List.filter_append, List.filter_append, h.1, h'.1], fun hout b hb => ?_⟩
  rcases List.mem_append.1 hb with hb | hb
  · exact h.2 (fun c hc => hout c (List.mem_append_left _ hc)) b hb
  · exact h'.2 (fun c hc => hout c (List.mem_append_right _ hc)) b hb

/-- A character that is not ASCII has no ASCII byte. -/
theorem le_of_mem_utf8EncodeChar {c : Char} (hc : 128 ≤ c.toNat) {b : UInt8}
    (hb : b ∈ utf8EncodeChar c) : 0x80 ≤ b := by
  have hval : c.val.toNat = c.toNat := rfl
  have hlt : c.toNat < 1114112 := by
    rcases c.valid with h | h <;> omega
  rw [UInt8.le_iff_toNat_le, show (0x80 : UInt8).toNat = 128 from rfl]
  rw [utf8EncodeChar, hval, if_neg (by omega)] at hb
  split_ifs at hb <;> simp only [List.mem_cons, List.not_mem_nil, or_false] at hb
  · rcases hb with rfl | rfl <;> rw [UInt8.toNat_ofNat'] <;> omega
  · rcases hb with rfl | rfl | rfl <;> rw [UInt8.toNat_ofNat'] <;> omega
  · rcases hb with rfl | rfl | rfl | rfl <;> rw [UInt8.toNat_ofNat'] <;> omega

/-- A piece without ASCII that becomes one such character. -/
theorem KeepsAscii.cons {rest : List UInt8} {c : Char} {cs : List Char}
    (h : KeepsAscii rest (cs.flatMap utf8EncodeChar)) (src : List UInt8)
    (hsrc : ∀ b ∈ src, 128 ≤ b.toNat) (hc : 128 ≤ c.toNat) :
    KeepsAscii (src ++ rest) ((c :: cs).flatMap utf8EncodeChar) := by
  have hout : ∀ b ∈ utf8EncodeChar c, ¬b < 0x80 := fun b hb =>
    UInt8.not_lt.2 (le_of_mem_utf8EncodeChar hc hb)
  have hsrc' : ∀ b ∈ src, ¬b < 0x80 := fun b hb => UInt8.not_lt.2 (hsrc b hb)
  refine KeepsAscii.append ⟨?_, fun hlow => ?_⟩ h
  · rw [List.filter_eq_nil_iff.2 fun b hb => by simpa using hout b hb,
      List.filter_eq_nil_iff.2 fun b hb => by simpa using hsrc' b hb]
  · obtain ⟨b, bs, hb⟩ := List.exists_cons_of_ne_nil (utf8EncodeChar_ne_nil (c := c))
    have hmem : b ∈ utf8EncodeChar c := hb ▸ List.mem_cons_self
    exact absurd (hlow b hmem) (hout b hmem)

/-- A single ASCII byte. -/
theorem KeepsAscii.cons_ascii {b : UInt8} {rest : List UInt8} {cs : List Char}
    (h : KeepsAscii rest (cs.flatMap utf8EncodeChar)) (hb : b.toNat < 128) :
    KeepsAscii (b :: rest) ((Char.ofNat b.toNat :: cs).flatMap utf8EncodeChar) := by
  have hc : (Char.ofNat b.toNat).val.toNat = b.toNat := toNat_ofNat (Or.inl (by omega))
  have hencode : utf8EncodeChar (Char.ofNat b.toNat) = [b] := by
    rw [utf8EncodeChar, hc, if_pos (by omega), UInt8.ofNat_toNat]
  rw [List.flatMap_cons, hencode]
  have hb' : KeepsAscii [b] [b] := ⟨rfl, id⟩
  exact hb'.append h

theorem high_of_utf8CharWidth {b : UInt8} (h : utf8CharWidth b ≠ 1) : 128 ≤ b.toNat := by
  rw [utf8CharWidth_eq] at h
  split_ifs at h <;> omega

theorem low_of_utf8CharWidth {b : UInt8} (h : utf8CharWidth b = 1) : b.toNat < 128 := by
  rw [utf8CharWidth_eq] at h
  split_ifs at h <;> omega

theorem high_of_secondByteOk {b₀ b₁ : UInt8} (h : ¬(!secondByteOk b₀ b₁) = true) :
    secondByteOk b₀ b₁ = true ∧ 128 ≤ b₁.toNat := by
  have hok : secondByteOk b₀ b₁ = true := by simpa using h
  exact ⟨hok, ((secondByteOk_iff b₀ b₁).1 hok).1.1⟩

theorem high_of_isContinuation {b : UInt8} (h : ¬(!isContinuation b) = true) : 128 ≤ b.toNat :=
  ((isContinuation_iff b).1 (by simpa using h)).1

/-- **What is not UTF-8 is replaced, the ASCII bytes stay.** -/
theorem keepsAscii_lossyChars (n : Path) :
    KeepsAscii n ((lossyChars n).flatMap utf8EncodeChar) := by
  have hreplaced : 128 ≤ replacementCharacter.toNat := by decide
  have hnil : KeepsAscii [] (([] : List Char).flatMap utf8EncodeChar) := ⟨rfl, by simp⟩
  fun_induction lossyChars n with
  | case1 => exact hnil
  | case2 b₀ t₀ hw ih =>
    have h₀ := high_of_utf8CharWidth (b := b₀) (by omega)
    exact ih.cons [b₀] (by simpa) hreplaced
  | case3 b₀ t₀ hw₀ hw ih => exact ih.cons_ascii (low_of_utf8CharWidth hw)
  | case4 b₀ hw₀ hw =>
    have h₀ := high_of_utf8CharWidth hw
    exact hnil.cons [b₀] (by simpa) hreplaced
  | case5 b₀ hw₀ hw b₁ t₁ hsecond ih =>
    have h₀ := high_of_utf8CharWidth hw
    exact ih.cons [b₀] (by simpa) hreplaced
  | case6 b₀ hw₀ hw b₁ t₁ hsecond hw₂ ih =>
    have h₀ := high_of_utf8CharWidth hw
    have h₁ := high_of_secondByteOk hsecond
    obtain ⟨hc, hle⟩ := toNat_decode_two hw₂ b₁
    exact ih.cons [b₀, b₁] (by simp [h₀, h₁.2]) (hc ▸ hle)
  | case7 b₀ hw₀ hw b₁ hsecond hw₂ =>
    have h₀ := high_of_utf8CharWidth hw
    have h₁ := high_of_secondByteOk hsecond
    exact hnil.cons [b₀, b₁] (by simp [h₀, h₁.2]) hreplaced
  | case8 b₀ hw₀ hw b₁ hsecond hw₂ b₂ t₂ hthird ih =>
    have h₀ := high_of_utf8CharWidth hw
    have h₁ := high_of_secondByteOk hsecond
    exact ih.cons [b₀, b₁] (by simp [h₀, h₁.2]) hreplaced
  | case9 b₀ hw₀ hw b₁ hsecond hw₂ b₂ t₂ hthird hw₃ ih =>
    have h₀ := high_of_utf8CharWidth hw
    have h₁ := high_of_secondByteOk hsecond
    have h₂ := high_of_isContinuation hthird
    obtain ⟨hc, hle⟩ := toNat_decode_three hw₃ h₁.1 b₂
    exact ih.cons [b₀, b₁, b₂] (by simp [h₀, h₁.2, h₂]) (hc ▸ hle)
  | case10 b₀ hw₀ hw b₁ hsecond hw₂ b₂ hthird hw₃ =>
    have h₀ := high_of_utf8CharWidth hw
    have h₁ := high_of_secondByteOk hsecond
    have h₂ := high_of_isContinuation hthird
    exact hnil.cons [b₀, b₁, b₂] (by simp [h₀, h₁.2, h₂]) hreplaced
  | case11 b₀ hw₀ hw b₁ hsecond hw₂ b₂ hthird hw₃ b₃ t₃ hfourth ih =>
    have h₀ := high_of_utf8CharWidth hw
    have h₁ := high_of_secondByteOk hsecond
    have h₂ := high_of_isContinuation hthird
    exact ih.cons [b₀, b₁, b₂] (by simp [h₀, h₁.2, h₂]) hreplaced
  | case12 b₀ hw₀ hw b₁ hsecond hw₂ b₂ hthird hw₃ b₃ t₃ hfourth ih =>
    have h₀ := high_of_utf8CharWidth hw
    have h₁ := high_of_secondByteOk hsecond
    have h₂ := high_of_isContinuation hthird
    have h₃ := high_of_isContinuation hfourth
    obtain ⟨hc, hle⟩ := toNat_decode_four ⟨hw₀, hw, hw₂, hw₃⟩ h₁.1 b₂ b₃
    exact ih.cons [b₀, b₁, b₂, b₃] (by simp [h₀, h₁.2, h₂, h₃]) (hc ▸ hle)

theorem notMem_lossy {n : Path} {b : UInt8} (hb : b < 0x80) (h : b ∉ n) :
    b ∉ osStr (toStringLossy n) := by
  rw [osStr_toStringLossy]
  intro hin
  have hin' : b ∈ ((lossyChars n).flatMap utf8EncodeChar).filter (· < 0x80) :=
    List.mem_filter.2 ⟨hin, by simpa⟩
  rw [(keepsAscii_lossyChars n).1] at hin'
  exact h (List.mem_filter.1 hin').1

/-- What becomes ASCII has been so. -/
theorem lossy_eq_of_ascii {n : Path} (h : ∀ b ∈ osStr (toStringLossy n), b < 0x80) :
    osStr (toStringLossy n) = n := by
  rw [osStr_toStringLossy] at h ⊢
  obtain ⟨hfilter, hlow⟩ := keepsAscii_lossyChars n
  rw [List.filter_eq_self.2 (by simpa using h),
    List.filter_eq_self.2 (by simpa using hlow h)] at hfilter
  exact hfilter

/-- **A name stays a name.**  It gets no separator, and becomes neither empty nor a dot or two. -/
theorem validName_lossy {n : Path} (h : ValidName n) : ValidName (osStr (toStringLossy n)) := by
  obtain ⟨hne, hdot, hdots, hsep⟩ := h
  have hstays : ∀ m : Path, (∀ b ∈ m, b < 0x80) → n ≠ m → osStr (toStringLossy n) ≠ m := by
    rintro m hm hnm rfl
    exact hnm (lossy_eq_of_ascii hm).symm
  exact ⟨hstays [] (by simp) hne, hstays [dot] (by decide +kernel) hdot,
    hstays [dot, dot] (by decide +kernel) hdots, notMem_lossy (by decide) hsep⟩

theorem fileName_lossy {n : Path} (h : FileName n) : FileName (osStr (toStringLossy n)) :=
  ⟨validName_lossy h.1, notMem_lossy (by decide) h.2⟩

/-! ## UTF-8

Decoding what was encoded, character by character. -/

section

variable {b₀ b₁ b₂ b₃ : UInt8} {t : List UInt8}

theorem lossyChars_one (hw : utf8CharWidth b₀ = 1) :
    lossyChars (b₀ :: t) = decodeChar b₀.toNat [] :: lossyChars t := by
  rw [lossyChars.eq_def]
  simp [hw]

theorem lossyChars_two (hw : utf8CharWidth b₀ = 2) (h₁ : secondByteOk b₀ b₁ = true) :
    lossyChars (b₀ :: b₁ :: t) = decodeChar (b₀ &&& 0x1F).toNat [b₁] :: lossyChars t := by
  rw [lossyChars.eq_def]
  simp [hw, h₁]

theorem lossyChars_three (hw : utf8CharWidth b₀ = 3) (h₁ : secondByteOk b₀ b₁ = true)
    (h₂ : isContinuation b₂ = true) :
    lossyChars (b₀ :: b₁ :: b₂ :: t) =
      decodeChar (b₀ &&& 0x0F).toNat [b₁, b₂] :: lossyChars t := by
  rw [lossyChars.eq_def]
  simp [hw, h₁, h₂]

theorem lossyChars_four (hw : utf8CharWidth b₀ = 4) (h₁ : secondByteOk b₀ b₁ = true)
    (h₂ : isContinuation b₂ = true) (h₃ : isContinuation b₃ = true) :
    lossyChars (b₀ :: b₁ :: b₂ :: b₃ :: t) =
      decodeChar (b₀ &&& 0x07).toNat [b₁, b₂, b₃] :: lossyChars t := by
  rw [lossyChars.eq_def]
  simp [hw, h₁, h₂, h₃]

end

/-- **The encoding of a character is decoded as that character.** -/
theorem lossyChars_utf8EncodeChar (c : Char) (rest : List UInt8) :
    lossyChars (utf8EncodeChar c ++ rest) = c :: lossyChars rest := by
  have hval : c.val.toNat = c.toNat := rfl
  have hlt : c.toNat < 0xD800 ∨ 0xDFFF < c.toNat ∧ c.toNat < 0x110000 := c.valid
  have hdecode : ∀ {c' : Char}, c'.toNat = c.toNat → c' = c := fun h =>
    Char.ext (UInt32.toNat_inj.1 h)
  have hbyte : ∀ v : Nat, v < 256 → (UInt8.ofNat v).toNat = v := fun v hv => by
    rw [UInt8.toNat_ofNat', Nat.mod_eq_of_lt hv]
  rw [utf8EncodeChar, hval]
  split_ifs with h₁ h₂ h₃
  · generalize hb₀ : UInt8.ofNat c.toNat = b₀
    have h₀ : b₀.toNat = c.toNat := hb₀ ▸ hbyte _ (by omega)
    have hw : utf8CharWidth b₀ = 1 := by rw [utf8CharWidth_eq, if_pos (by omega)]
    rw [List.cons_append, lossyChars_one hw, h₀]
    exact congrArg (· :: _) (Char.ofNat_toNat c)
  · generalize hb₀ : UInt8.ofNat (c.toNat / 64 % 0x20 + 0xc0) = b₀
    generalize hb₁ : UInt8.ofNat (c.toNat % 0x40 + 0x80) = b₁
    have h₀ : b₀.toNat = c.toNat / 64 % 32 + 192 := hb₀ ▸ hbyte _ (by omega)
    have h₁ : b₁.toNat = c.toNat % 64 + 128 := hb₁ ▸ hbyte _ (by omega)
    have hw : utf8CharWidth b₀ = 2 := by rw [utf8CharWidth_eq]; split_ifs <;> omega
    have hsecond : secondByteOk b₀ b₁ = true := (secondByteOk_iff _ _).2 (by omega)
    have hc := (toNat_decode_two hw b₁).1
    simp only [List.cons_append, List.nil_append, lossyChars_two hw hsecond]
    rw [hdecode (hc.trans (by omega))]
  · generalize hb₀ : UInt8.ofNat (c.toNat / 4096 % 0x10 + 0xe0) = b₀
    generalize hb₁ : UInt8.ofNat (c.toNat / 64 % 0x40 + 0x80) = b₁
    generalize hb₂ : UInt8.ofNat (c.toNat % 0x40 + 0x80) = b₂
    have h₀ : b₀.toNat = c.toNat / 4096 % 16 + 224 := hb₀ ▸ hbyte _ (by omega)
    have h₁ : b₁.toNat = c.toNat / 64 % 64 + 128 := hb₁ ▸ hbyte _ (by omega)
    have h₂ : b₂.toNat = c.toNat % 64 + 128 := hb₂ ▸ hbyte _ (by omega)
    have hw : utf8CharWidth b₀ = 3 := by rw [utf8CharWidth_eq]; split_ifs <;> omega
    have hsecond : secondByteOk b₀ b₁ = true := (secondByteOk_iff _ _).2 (by omega)
    have hthird : isContinuation b₂ = true := (isContinuation_iff _).2 (by omega)
    have hc := (toNat_decode_three hw hsecond b₂).1
    simp only [List.cons_append, List.nil_append, lossyChars_three hw hsecond hthird]
    rw [hdecode (hc.trans (by omega))]
  · generalize hb₀ : UInt8.ofNat (c.toNat / 262144 % 0x08 + 0xf0) = b₀
    generalize hb₁ : UInt8.ofNat (c.toNat / 4096 % 0x40 + 0x80) = b₁
    generalize hb₂ : UInt8.ofNat (c.toNat / 64 % 0x40 + 0x80) = b₂
    generalize hb₃ : UInt8.ofNat (c.toNat % 0x40 + 0x80) = b₃
    have h₀ : b₀.toNat = c.toNat / 262144 % 8 + 240 := hb₀ ▸ hbyte _ (by omega)
    have h₁ : b₁.toNat = c.toNat / 4096 % 64 + 128 := hb₁ ▸ hbyte _ (by omega)
    have h₂ : b₂.toNat = c.toNat / 64 % 64 + 128 := hb₂ ▸ hbyte _ (by omega)
    have h₃ : b₃.toNat = c.toNat % 64 + 128 := hb₃ ▸ hbyte _ (by omega)
    have hw : utf8CharWidth b₀ = 4 := by rw [utf8CharWidth_eq]; split_ifs <;> omega
    have hsecond : secondByteOk b₀ b₁ = true := (secondByteOk_iff _ _).2 (by omega)
    have hthird : isContinuation b₂ = true := (isContinuation_iff _).2 (by omega)
    have hfourth : isContinuation b₃ = true := (isContinuation_iff _).2 (by omega)
    have hc := (toNat_decode_four (by simp [hw]) hsecond b₂ b₃).1
    simp only [List.cons_append, List.nil_append, lossyChars_four hw hsecond hthird hfourth]
    rw [hdecode (hc.trans (by omega))]

theorem lossyChars_flatMap (cs : List Char) : lossyChars (cs.flatMap utf8EncodeChar) = cs := by
  induction cs with
  | nil => rfl
  | cons c cs ih => rw [List.flatMap_cons, lossyChars_utf8EncodeChar, ih]

/-- **A string comes back** from its bytes, whatever its characters are. -/
theorem toStringLossy_osStr (s : String) : toStringLossy (osStr s) = s := by
  conv_lhs => rw [← ofList_toList (s := s)]
  rw [osStr_ofList, toStringLossy, lossyChars_flatMap, ofList_toList]

/-- A name that is the bytes of a string, and so comes back when a client sends what it has been
shown. -/
def IsUtf8 (n : Path) : Prop := osStr (toStringLossy n) = n

instance (n : Path) : Decidable (IsUtf8 n) := by unfold IsUtf8; infer_instance

theorem isUtf8_osStr (s : String) : IsUtf8 (osStr s) := by rw [IsUtf8, toStringLossy_osStr]

/-! ## Paths

Names between separators, which are ASCII and so stay where they are. -/

theorem lossyChars_sep (b : Path) : lossyChars (sep :: b) = '/' :: lossyChars b := by
  rw [lossyChars_one (by decide)]
  rfl

/-- **No character goes across a separator.**  The start of an encoding in front of it is replaced,
and decoding begins anew behind it. -/
theorem lossyChars_append_sep (a b : Path) :
    lossyChars (a ++ sep :: b) = lossyChars a ++ '/' :: lossyChars b := by
  have hsep₂ : ∀ b₀, secondByteOk b₀ sep = false := by
    intro b₀
    rw [Bool.eq_false_iff, Ne, secondByteOk_iff]
    have hsep : sep.toNat = 47 := rfl
    omega
  have hsep₃ : isContinuation sep = false := by decide
  fun_induction lossyChars a with
  | case1 => exact lossyChars_sep b
  | case2 b₀ t₀ hw ih =>
    rw [List.cons_append, lossyChars.eq_def]
    simp [hw, ih]
  | case3 b₀ t₀ hw₀ hw ih =>
    rw [List.cons_append, lossyChars_one hw, ih]
    rfl
  | case4 b₀ hw₀ hw =>
    rw [List.cons_append, lossyChars.eq_def]
    simp [hw₀, hw, hsep₂, lossyChars_sep]
  | case5 b₀ hw₀ hw b₁ t₁ hsecond ih =>
    have h₁ : secondByteOk b₀ b₁ = false := by simpa using hsecond
    rw [List.cons_append] at ih
    rw [List.cons_append, lossyChars.eq_def]
    simp [hw₀, hw, h₁, ih]
  | case6 b₀ hw₀ hw b₁ t₁ hsecond hw₂ ih =>
    have h₁ := (high_of_secondByteOk hsecond).1
    rw [List.cons_append, List.cons_append, lossyChars_two hw₂ h₁, ih]
    rfl
  | case7 b₀ hw₀ hw b₁ hsecond hw₂ =>
    have h₁ := (high_of_secondByteOk hsecond).1
    rw [List.cons_append, lossyChars.eq_def]
    simp [hw₀, hw, h₁, hw₂, hsep₃, lossyChars_sep]
  | case8 b₀ hw₀ hw b₁ hsecond hw₂ b₂ t₂ hthird ih =>
    have h₁ := (high_of_secondByteOk hsecond).1
    have h₂ : isContinuation b₂ = false := by simpa using hthird
    rw [List.cons_append] at ih
    rw [List.cons_append, lossyChars.eq_def]
    simp [hw₀, hw, h₁, hw₂, h₂, ih]
  | case9 b₀ hw₀ hw b₁ hsecond hw₂ b₂ t₂ hthird hw₃ ih =>
    have h₁ := (high_of_secondByteOk hsecond).1
    have h₂ : isContinuation b₂ = true := by simpa using hthird
    simp only [List.cons_append, lossyChars_three hw₃ h₁ h₂, ih]
  | case10 b₀ hw₀ hw b₁ hsecond hw₂ b₂ hthird hw₃ =>
    have h₁ := (high_of_secondByteOk hsecond).1
    have h₂ : isContinuation b₂ = true := by simpa using hthird
    rw [List.cons_append, lossyChars.eq_def]
    simp [hw₀, hw, h₁, hw₂, h₂, hw₃, hsep₃, lossyChars_sep]
  | case11 b₀ hw₀ hw b₁ hsecond hw₂ b₂ hthird hw₃ b₃ t₃ hfourth ih =>
    have h₁ := (high_of_secondByteOk hsecond).1
    have h₂ : isContinuation b₂ = true := by simpa using hthird
    have h₃ : isContinuation b₃ = false := by simpa using hfourth
    rw [List.cons_append] at ih
    rw [List.cons_append, lossyChars.eq_def]
    simp [hw₀, hw, h₁, hw₂, h₂, hw₃, h₃, ih]
  | case12 b₀ hw₀ hw b₁ hsecond hw₂ b₂ hthird hw₃ b₃ t₃ hfourth ih =>
    have h₁ := (high_of_secondByteOk hsecond).1
    have h₂ : isContinuation b₂ = true := by simpa using hthird
    have h₃ : isContinuation b₃ = true := by simpa using hfourth
    rw [List.cons_append, lossyChars.eq_def]
    simp [hw₀, hw, h₁, hw₂, h₂, hw₃, h₃, ih]

theorem lossy_nil : osStr (toStringLossy []) = [] := by
  rw [osStr_toStringLossy]
  rfl

theorem lossy_append_sep (a b : Path) : osStr (toStringLossy (a ++ sep :: b)) =
    osStr (toStringLossy a) ++ sep :: osStr (toStringLossy b) := by
  rw [osStr_toStringLossy, osStr_toStringLossy, osStr_toStringLossy, lossyChars_append_sep,
    List.flatMap_append, List.flatMap_cons]
  rfl

/-- **A path is converted name by name.** -/
theorem lossy_renderAbs (ns : List Path) : osStr (toStringLossy (renderAbs ns)) =
    renderAbs (ns.map fun n => osStr (toStringLossy n)) := by
  have hbody : ∀ ns : List Path, osStr (toStringLossy ([sep].intercalate ns)) =
      [sep].intercalate (ns.map fun n => osStr (toStringLossy n)) := by
    intro ns
    induction ns with
    | nil => exact lossy_nil
    | cons n ns ih =>
      cases ns with
      | nil => simp
      | cons m ns =>
        have hcons : [sep].intercalate (n :: m :: ns) = n ++ sep :: [sep].intercalate (m :: ns) := by
          simp [List.intercalate_cons_cons]
        rw [hcons, lossy_append_sep, ih]
        simp [List.intercalate_cons_cons]
  rw [renderAbs, ← List.nil_append (sep :: _), lossy_append_sep, lossy_nil, hbody]
  rfl

theorem isUtf8_join {p name : Path} (hp : IsUtf8 p) (hname : IsUtf8 name) :
    IsUtf8 (UnixPath.join p name) := by
  rw [UnixPath.join]
  split_ifs with habs hsep
  · exact hname
  · rcases hsep with rfl | hlast
    · exact hname
    · obtain ⟨front, rfl⟩ := List.getLast?_eq_some_iff.1 hlast
      have hfront := lossy_append_sep front []
      rw [hp, lossy_nil, List.append_cancel_right_eq] at hfront
      rw [IsUtf8, List.append_assoc, List.singleton_append, lossy_append_sep, hname, ← hfront]
  · rw [IsUtf8, lossy_append_sep, hp, hname]

end Distfs
end DistributedPrograms
