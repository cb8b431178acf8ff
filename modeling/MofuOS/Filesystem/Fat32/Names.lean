import MofuOS.Filesystem.Fat32.Driver
import Mathlib.Data.List.Induction
import Mathlib.Data.List.TakeWhile
import Mathlib.Data.Vector.Mem

/-! The three codecs of 8.3 names: the encoder of new entries works byte by byte, the encoder
of lookups char by char, and the decoder stops at a zero byte or a space. -/
namespace MofuOS.Filesystem.Fat32
open Lib

section Utf8
variable {c : Char} {s t : List Char}

/-- A char that one byte encodes. -/
def isAscii (c : Char) : Bool := c.toNat < 128

theorem utf8EncodeChar_ascii (h : isAscii c = true) : String.utf8EncodeChar c = [UInt8.ofNat c.toNat] := by
  have hle : c.val ≤ 127 := by
    rw [isAscii,decide_eq_true_eq,Char.toNat] at h
    rw [UInt32.le_iff_toNat_le]
    exact Nat.le_of_lt_succ h
  rw [String.utf8EncodeChar_eq_singleton (Char.utf8Size_eq_one_iff.mpr hle)]
  have hbyte : c.val.toUInt8 = UInt8.ofNat c.toNat := by
    rw [← UInt8.toNat_inj,UInt32.toNat_toUInt8,UInt8.toNat_ofNat',Char.toNat]
  rw [hbyte]

private theorem le_or (a : UInt8) {b : UInt8} (hb : 0x80 ≤ b) : 0x80 ≤ a ||| b := by
  rw [UInt8.le_iff_toNat_le] at hb ⊢
  rw [UInt8.toNat_or]
  exact Nat.le_trans hb Nat.right_le_or

theorem utf8EncodeChar_other (h : isAscii c = false) :
    2 ≤ (String.utf8EncodeChar c).length ∧ ∀ b ∈ String.utf8EncodeChar c, 0x80 ≤ b := by
  have hne : c.utf8Size ≠ 1 := by
    intro hone
    have hle := Char.utf8Size_eq_one_iff.mp hone
    rw [isAscii,decide_eq_false_iff_not] at h
    rw [UInt32.le_iff_toNat_le] at hle
    exact h (Nat.lt_succ_of_le hle)
  rcases c.utf8Size_eq with hs | hs | hs | hs
  · exact absurd hs hne
  · simp [String.utf8EncodeChar_eq_cons_cons hs,le_or]
  · simp [String.utf8EncodeChar_eq_cons_cons_cons hs,le_or]
  · simp [String.utf8EncodeChar_eq_cons_cons_cons_cons hs,le_or]

@[simp] theorem utf8_nil : utf8 [] = [] := rfl
@[simp] theorem utf8_cons : utf8 (c :: s) = String.utf8EncodeChar c ++ utf8 s := List.flatMap_cons ..
@[simp] theorem utf8_append : utf8 (s ++ t) = utf8 s ++ utf8 t := List.flatMap_append

/-- Equal bytes are of equal strings. -/
theorem utf8_injective (h : utf8 s = utf8 t) : s = t := by
  refine String.ofList_injective (String.toByteArray_inj.mp ?_)
  rw [String.toByteArray_ofList,String.toByteArray_ofList,List.utf8Encode,List.utf8Encode]
  exact congrArg List.toByteArray h

theorem length_le_utf8 : s.length ≤ (utf8 s).length := by
  induction s with
  | nil => exact Nat.le_refl _
  | cons c s ih =>
    have hpos : 0 < (String.utf8EncodeChar c).length := List.length_pos_of_ne_nil String.utf8EncodeChar_ne_nil
    rw [utf8_cons,List.length_append,List.length_cons]
    omega

theorem utf8_ascii (h : s.all isAscii = true) : utf8 s = s.map fun c => UInt8.ofNat c.toNat := by
  induction s with
  | nil => rfl
  | cons c s ih =>
    rw [List.all_cons,Bool.and_eq_true] at h
    rw [utf8_cons,utf8EncodeChar_ascii h.1,ih h.2]
    rfl

theorem validUtf8_ascii (h : s.all isAscii = true) : validUtf8 (utf8 s) = true := by
  induction s with
  | nil => rfl
  | cons c s ih =>
    rw [List.all_cons,Bool.and_eq_true] at h
    have hlt : UInt8.ofNat c.toNat < 0x80 := by
      have hc : c.toNat < 128 := by simpa [isAscii] using h.1
      rw [UInt8.lt_iff_toNat_lt,UInt8.toNat_ofNat',Nat.mod_eq_of_lt (by omega)]
      exact hc
    rw [utf8_cons,utf8EncodeChar_ascii h.1,List.singleton_append,validUtf8.eq_def]
    simp only [if_pos hlt]
    exact ih h.2

/-- Only ASCII is as short in bytes as in chars. -/
theorem all_ascii_of_length (h : (utf8 s).length ≤ s.length) : s.all isAscii = true := by
  induction s with
  | nil => rfl
  | cons c s ih =>
    rw [utf8_cons,List.length_append,List.length_cons] at h
    have hs := @length_le_utf8 s
    cases hc : isAscii c with
    | false =>
      have := (utf8EncodeChar_other hc).1
      omega
    | true =>
      rw [utf8EncodeChar_ascii hc,List.length_singleton] at h
      rw [List.all_cons,hc,ih (by omega)]
      rfl

variable {b : UInt8}

theorem asciiUppercase_of_le (h : 0x80 ≤ b) : asciiUppercase b = b := by
  rw [asciiUppercase,if_neg]
  rintro ⟨-,hb⟩
  rw [UInt8.le_iff_toNat_le] at h hb
  exact absurd (Nat.le_trans h hb) (by decide)

theorem toUpper_of_other (h : isAscii c = false) : c.toUpper = c := by
  refine dif_neg ?_
  rintro ⟨-,hc⟩
  rw [isAscii,decide_eq_false_iff_not] at h
  rw [UInt32.le_iff_toNat_le] at hc
  exact h (Nat.lt_of_le_of_lt hc (by decide))

/-- A property of ASCII is checked by running over the 128 codes. -/
private theorem forall_ascii {P : Char → Prop} (h : ∀ n < 128, P (Char.ofNat n)) (hc : isAscii c = true) : P c := by
  have hp := h c.toNat (by simpa [isAscii] using hc)
  rwa [Char.ofNat_toNat] at hp

/-- The bytes and the chars before which the decoder stops. -/
def textByte (b : UInt8) : Bool := b != 0 && b != 0x20
def textChar (c : Char) : Bool := c != Char.ofNat 0 && c != ' '

/-- How the three codecs treat an ASCII char and its capital. -/
private theorem ascii_codes (h : isAscii c = true) :
    (isAscii c.toUpper = true ∧ charByte c.toUpper = charByte c ∧ charByte c.toUpper = UInt8.ofNat c.toUpper.toNat) ∧
    asciiUppercase (UInt8.ofNat c.toNat) = UInt8.ofNat c.toUpper.toNat ∧
    textByte (UInt8.ofNat c.toNat) = textChar c ∧ (UInt8.ofNat c.toNat = 0x20 → c = ' ') ∧
    textChar c.toUpper = textChar c ∧ (c.toUpper = '.' ↔ c = '.') ∧ (c.toUpper = ' ' ↔ c = ' ') :=
  forall_ascii (P := fun c =>
    (isAscii c.toUpper = true ∧ charByte c.toUpper = charByte c ∧ charByte c.toUpper = UInt8.ofNat c.toUpper.toNat) ∧
    asciiUppercase (UInt8.ofNat c.toNat) = UInt8.ofNat c.toUpper.toNat ∧
    textByte (UInt8.ofNat c.toNat) = textChar c ∧ (UInt8.ofNat c.toNat = 0x20 → c = ' ') ∧
    textChar c.toUpper = textChar c ∧ (c.toUpper = '.' ↔ c = '.') ∧ (c.toUpper = ' ' ↔ c = ' ')) (by decide +kernel) h

theorem isAscii_toUpper : isAscii c.toUpper = isAscii c := by
  cases h : isAscii c with
  | false => rw [toUpper_of_other h,h]
  | true => exact (ascii_codes h).1.1

theorem charByte_toUpper (h : isAscii c = true) : charByte c.toUpper = UInt8.ofNat c.toUpper.toNat :=
  (ascii_codes h).1.2.2

/-- Uppercasing the bytes of a string is uppercasing its chars. -/
theorem utf8_toUpper : (utf8 s).map asciiUppercase = utf8 (s.map Char.toUpper) := by
  induction s with
  | nil => rfl
  | cons c s ih =>
    rw [utf8_cons,List.map_append,List.map_cons,utf8_cons,ih]
    congr 1
    cases h : isAscii c with
    | false =>
      rw [toUpper_of_other h]
      exact (List.map_congr_left fun b hb => asciiUppercase_of_le ((utf8EncodeChar_other h).2 b hb)).trans (List.map_id _)
    | true =>
      rw [utf8EncodeChar_ascii h,utf8EncodeChar_ascii (by rw [isAscii_toUpper,h]),List.map_singleton]
      exact congrArg (fun b => [b]) (ascii_codes h).2.1

theorem textByte_of_le (h : 0x80 ≤ b) : textByte b = true := by
  have h0 : b ≠ 0 := by
    rintro rfl
    exact absurd h (by decide)
  have h20 : b ≠ 0x20 := by
    rintro rfl
    exact absurd h (by decide)
  simp [textByte,h0,h20]

theorem textChar_of_other (h : isAscii c = false) : textChar c = true := by
  have h0 : c ≠ Char.ofNat 0 := by
    rintro rfl
    exact absurd h (by decide)
  have h20 : c ≠ ' ' := by
    rintro rfl
    exact absurd h (by decide)
  simp [textChar,h0,h20]

theorem textByte_ascii (h : isAscii c = true) : textByte (UInt8.ofNat c.toNat) = textChar c :=
  (ascii_codes h).2.2.1

/-- What is decoded of a string's bytes are the bytes of its text. -/
theorem utf8_takeWhile : (utf8 s).takeWhile textByte = utf8 (s.takeWhile textChar) := by
  induction s with
  | nil => rfl
  | cons c s ih =>
    cases h : isAscii c with
    | false =>
      rw [List.takeWhile_cons,textChar_of_other h,utf8_cons,if_pos rfl,utf8_cons,← ih,
        List.takeWhile_append_of_pos fun b hb => textByte_of_le ((utf8EncodeChar_other h).2 b hb)]
    | true =>
      rw [utf8_cons,utf8EncodeChar_ascii h,List.singleton_append,List.takeWhile_cons,List.takeWhile_cons,textByte_ascii h,ih]
      split_ifs with ht
      · rw [utf8_cons,utf8EncodeChar_ascii h,List.singleton_append]
      · rfl

/-- The capital of a char is a space, a dot or text like the char. -/
theorem toUpper_reads : textChar c.toUpper = textChar c ∧ (c.toUpper = '.' ↔ c = '.') ∧ (c.toUpper = ' ' ↔ c = ' ') := by
  cases h : isAscii c with
  | false => simp [toUpper_of_other h]
  | true => exact (ascii_codes h).2.2.2.2

end Utf8

section Parts
variable {s part : List Char} {l : List UInt8} {n : Nat}

/-- The chars that all three codecs agree on. -/
def plainChar (c : Char) : Bool := isAscii c && textChar c

/-- Plain chars, and behind them nothing but spaces. -/
def plainPart (part : List Char) : Bool := (part.dropWhile plainChar).all (· == ' ')

theorem padded_toList (h : l.length ≤ n) : (padded n l).toList = l ++ List.replicate (n - l.length) 0x20 := by
  have hpad : (padded n l).toList = (l ++ List.replicate n 0x20).take n := rfl
  rw [hpad,List.take_append,List.take_of_length_le h,List.take_replicate,Nat.min_eq_left (Nat.sub_le ..)]

theorem takeWhile_padded (h : l.length ≤ n) : (padded n l).toList.takeWhile textByte = l.takeWhile textByte := by
  have hpad : (List.replicate (n - l.length) (0x20 : UInt8)).takeWhile textByte = [] := by
    cases n - l.length <;> rfl
  rw [padded_toList h,List.takeWhile_append,hpad,List.append_nil]
  split_ifs with hall
  · exact ((List.takeWhile_prefix _).eq_of_length hall).symm
  · rfl

theorem plainPart_toUpper : plainPart (part.map Char.toUpper) = plainPart part := by
  have hplain : plainChar ∘ Char.toUpper = plainChar := by
    funext c
    rw [Function.comp,plainChar,plainChar,isAscii_toUpper,toUpper_reads.1]
  have hspace : ((· == ' ') ∘ Char.toUpper : Char → Bool) = (· == ' ') := by
    funext c
    rw [Function.comp,Bool.eq_iff_iff,beq_iff_eq,beq_iff_eq]
    exact toUpper_reads.2.2
  rw [plainPart,List.dropWhile_map,List.all_map,hplain,hspace,plainPart]

theorem padded_eq_iff {l' : List UInt8} (h : l.length ≤ n) (h' : l'.length ≤ n) : padded n l = padded n l' ↔
    l ++ List.replicate (n - l.length) 0x20 = l' ++ List.replicate (n - l'.length) 0x20 := by
  rw [← padded_toList h,← padded_toList h']
  exact (List.Vector.toList_injective.eq_iff).symm

private theorem plain_codec (hq : ∀ c ∈ s, isAscii c = true → charByte c = UInt8.ofNat c.toNat)
    (h : s.all isAscii = true) : utf8 s = s.map charByte := by
  rw [utf8_ascii h]
  refine List.map_congr_left fun c hc => (hq c hc ?_).symm
  exact List.all_eq_true.mp h c hc

private theorem utf8_spaces (h : s.all (· == ' ') = true) : utf8 s = List.replicate s.length 0x20 := by
  rw [List.eq_replicate_of_mem fun c hc => eq_of_beq (List.all_eq_true.mp h c hc)]
  generalize s.length = k
  rw [List.length_replicate]
  induction k with
  | zero => rfl
  | succ k ih =>
    rw [List.replicate_succ,utf8_cons,ih]
    rfl

private theorem spaces_of_utf8 (h : ∀ b ∈ utf8 s, b = 0x20) : s.all (· == ' ') = true := by
  refine List.all_eq_true.mpr fun c hc => beq_iff_eq.mpr ?_
  have hbytes : ∀ b ∈ String.utf8EncodeChar c, b = 0x20 := fun b hb => h b (List.mem_flatMap.mpr ⟨c,hc,hb⟩)
  cases hascii : isAscii c with
  | false =>
    obtain ⟨b,hb⟩ := List.exists_mem_of_ne_nil _ (@String.utf8EncodeChar_ne_nil c)
    have hle := (utf8EncodeChar_other hascii).2 b hb
    rw [hbytes b hb] at hle
    exact absurd hle (by decide)
  | true =>
    rw [utf8EncodeChar_ascii hascii] at hbytes
    exact (ascii_codes hascii).2.2.2.1 (hbytes _ List.mem_cons_self)

/-- The bytes of a text are no padding, so a field that starts with them holds as many. -/
private theorem length_le_of_padded {text rest : List Char} (htext : ∀ c ∈ text, textChar c = true)
    (hn : (utf8 (text ++ rest)).length ≤ n) (hl : l.length ≤ n) (heq : padded n (utf8 (text ++ rest)) = padded n l) :
    (utf8 text).length ≤ l.length := by
  refine Nat.le_of_not_lt fun hlt => ?_
  have hself : text.takeWhile textChar = text := List.takeWhile_eq_self_iff.mpr htext
  have hat : (utf8 text)[l.length]? = some 0x20 := by
    have h := congrArg (fun l' => l'[l.length]?) ((padded_eq_iff hn hl).mp heq)
    simp only [utf8_append,List.append_assoc] at h
    rw [utf8_append,List.length_append] at hn
    rwa [List.getElem?_append_left hlt,List.getElem?_append_right (Nat.le_refl _),Nat.sub_self,List.getElem?_replicate,
      if_pos (by omega)] at h
  have hmem := List.mem_of_getElem? hat
  rw [← hself,← utf8_takeWhile] at hmem
  exact absurd (List.mem_takeWhile_imp hmem) (by decide)

/-- A part, its text and then the rest, is plain when the text is ASCII and the rest spaces. -/
theorem plainPart_append {text rest : List Char} (htext : ∀ c ∈ text, textChar c = true)
    (hrest : rest.takeWhile textChar = []) :
    plainPart (text ++ rest) = true ↔ text.all isAscii = true ∧ rest.all (· == ' ') = true := by
  induction text with
  | nil =>
    cases rest with
    | nil => exact ⟨fun _ => ⟨rfl,rfl⟩,fun _ => rfl⟩
    | cons c rest =>
      have hc : plainChar c = false := by
        rw [plainChar,Bool.and_eq_false_iff]
        refine .inr (Bool.eq_false_iff.mpr fun h => ?_)
        rw [List.takeWhile_cons,if_pos h] at hrest
        cases hrest
      rw [List.nil_append,plainPart,List.dropWhile_cons_of_neg (by rw [hc]; exact Bool.false_ne_true)]
      exact ⟨fun h => ⟨rfl,h⟩,And.right⟩
  | cons c text ih =>
    have hc := htext c List.mem_cons_self
    have ih := ih fun c hc => htext c (List.mem_cons_of_mem _ hc)
    rw [List.cons_append,plainPart,List.all_cons]
    cases hascii : isAscii c with
    | true =>
      rw [List.dropWhile_cons_of_pos (by rw [plainChar,hascii,hc]; rfl),← plainPart,ih,Bool.true_and]
    | false =>
      have hne : (c == ' ') = false := by
        rw [beq_eq_false_iff_ne]
        rintro rfl
        exact absurd hascii (by decide)
      rw [List.dropWhile_cons_of_neg (by rw [plainChar,hascii]; exact Bool.false_ne_true),List.all_cons,hne]
      simp

/-- A string of capitals, its text and then the rest, is stored as its text is looked up exactly when it is
plain. -/
private theorem padded_append_iff {text rest : List Char} (htext : ∀ c ∈ text, textChar c = true)
    (hrest : rest.takeWhile textChar = []) (hn : (utf8 (text ++ rest)).length ≤ n)
    (hq : ∀ c ∈ text, isAscii c = true → charByte c = UInt8.ofNat c.toNat) :
    padded n (utf8 (text ++ rest)) = padded n (text.map charByte) ↔ plainPart (text ++ rest) = true := by
  have hlen : (utf8 text).length + (utf8 rest).length ≤ n := by rwa [← List.length_append,← utf8_append]
  have hle := @length_le_utf8 text
  have hmap : (text.map charByte).length ≤ n := by rw [List.length_map]; omega
  rw [plainPart_append htext hrest]
  constructor
  · intro heq
    have hascii : text.all isAscii = true :=
      all_ascii_of_length (List.length_map charByte ▸ length_le_of_padded htext hn hmap heq)
    rw [padded_eq_iff hn hmap,utf8_append,plain_codec hq hascii,List.append_assoc] at heq
    have hspaces := List.append_cancel_left heq
    exact ⟨hascii,spaces_of_utf8 fun b hb => List.eq_of_mem_replicate (hspaces ▸ List.mem_append_left _ hb)⟩
  · rintro ⟨hascii,hspaces⟩
    rw [plain_codec hq hascii,utf8_spaces hspaces,List.length_map,List.length_replicate] at hlen
    rw [padded_eq_iff hn hmap,utf8_append,plain_codec hq hascii,utf8_spaces hspaces,List.append_assoc,List.length_append,
      List.replicate_append_replicate,List.length_map,List.length_replicate]
    congr 2
    omega

/-- The capitals of a part up to its first zero char or space. -/
def partText (part : List Char) : List Char := (part.map Char.toUpper).takeWhile textChar

variable {part : List Char}

theorem partText_text : ∀ c ∈ partText part, textChar c = true := fun _ => List.mem_takeWhile_imp

/-- Behind its text a part has no more text. -/
theorem partText_append : ∃ rest, part.map Char.toUpper = partText part ++ rest ∧ rest.takeWhile textChar = [] := by
  refine ⟨_,List.takeWhile_append_dropWhile.symm,List.takeWhile_eq_nil_iff.mpr fun h => ?_⟩
  exact List.dropWhile_get_zero_not _ _ h

theorem length_toUpper (h : (utf8 part).length ≤ n) : (utf8 (part.map Char.toUpper)).length ≤ n := by
  rwa [← utf8_toUpper,List.length_map]

theorem partText_length (h : (utf8 part).length ≤ n) : (utf8 (partText part)).length ≤ n := by
  obtain ⟨rest,hrest,-⟩ := @partText_append part
  have hn := length_toUpper h
  rw [hrest,utf8_append,List.length_append] at hn
  omega

theorem dot_mem_of_partText (h : '.' ∈ partText part) : '.' ∈ part := by
  obtain ⟨c,hc,heq⟩ := List.mem_map.mp (List.takeWhile_subset _ h)
  exact toUpper_reads.2.1.mp heq ▸ hc

theorem dot_mem_partText (hplain : plainPart part = true) (h : '.' ∈ part) : '.' ∈ partText part := by
  obtain ⟨rest,hrest,htail⟩ := @partText_append part
  rw [← plainPart_toUpper,hrest,plainPart_append partText_text htail] at hplain
  have hup : '.' ∈ part.map Char.toUpper := List.mem_map.mpr ⟨_,h,rfl⟩
  rw [hrest,List.mem_append] at hup
  refine hup.resolve_right fun hmem => ?_
  exact absurd (List.all_eq_true.mp hplain.2 _ hmem) (by decide)

/-- The bytes of the capitals of a part are those its text is looked up by exactly when it is plain. -/
theorem padded_text_iff (h : (utf8 part).length ≤ n) :
    padded n (utf8 (part.map Char.toUpper)) = padded n ((partText part).map charByte) ↔ plainPart part = true := by
  obtain ⟨rest,hrest,htail⟩ := @partText_append part
  have hn := length_toUpper h
  have hiff := @padded_append_iff n _ _ partText_text htail (hrest ▸ hn) fun c hc hascii => ?_
  · rwa [← hrest,plainPart_toUpper] at hiff
  · obtain ⟨a,-,rfl⟩ := List.mem_map.mp (List.takeWhile_subset _ hc)
    exact charByte_toUpper (by rwa [isAscii_toUpper] at hascii)

/-- What the decoder reads of the stored part is its text. -/
theorem takeWhile_stored (h : (utf8 part).length ≤ n) :
    (padded n (utf8 (part.map Char.toUpper))).toList.takeWhile textByte = utf8 (partText part) := by
  rw [takeWhile_padded (length_toUpper h),utf8_takeWhile,partText]

/-- A field that starts with the text of a part is not looked up by fewer chars. -/
theorem padded_ne_of_short {l : List UInt8} (h : (utf8 part).length ≤ n) (hl : l.length < (partText part).length) :
    padded n (utf8 (part.map Char.toUpper)) ≠ padded n l := by
  intro heq
  obtain ⟨rest,hrest,-⟩ := @partText_append part
  have hle := @length_le_utf8 (partText part)
  have hn := partText_length h
  rw [hrest] at heq
  have := length_le_of_padded partText_text (hrest ▸ length_toUpper h) (by omega) heq
  omega

/-- A string is not encoded by its low bytes and spaces behind them, unless there are none. -/
private theorem utf8_ne_charBytes {j : Nat} (h : utf8 s = s.map charByte ++ List.replicate j 0x20) : j = 0 := by
  induction s using List.reverseRecOn with
  | nil => simpa using h.symm
  | append_singleton s c ih =>
    rcases j with _ | j
    · rfl
    · rw [utf8_append,List.map_append,List.replicate_succ',← List.append_assoc,utf8_cons,utf8_nil,List.append_nil] at h
      have hascii : isAscii c = true := by
        by_contra hc
        obtain ⟨b,hb⟩ := Option.isSome_iff_exists.mp (List.getLast?_isSome.mpr (@String.utf8EncodeChar_ne_nil c))
        have hle := (utf8EncodeChar_other (Bool.not_eq_true _ ▸ hc)).2 b (List.mem_of_getLast? hb)
        have hlast := congrArg List.getLast? h
        rw [List.getLast?_concat,List.getLast?_append,hb] at hlast
        rw [Option.some.inj hlast] at hle
        exact absurd hle (by decide)
      rw [utf8EncodeChar_ascii hascii] at h
      obtain ⟨hinit,hlast⟩ := List.append_inj' h rfl
      have hc : c = ' ' := (ascii_codes hascii).2.2.2.1 (List.cons.inj hlast).1
      refine absurd (ih (hinit.trans ?_)) (Nat.succ_ne_zero j)
      rw [hc,List.append_assoc]
      rfl

theorem charByte_of_ascii (h : isAscii c = true) : charByte c.toUpper = charByte c :=
  (ascii_codes h).1.2.1

/-- The capitals of a part are stored as the part is looked up exactly when the part is ASCII. -/
theorem padded_charByte_iff (h : (utf8 part).length ≤ n) :
    padded n (utf8 (part.map Char.toUpper)) = padded n (part.map charByte) ↔ part.all isAscii = true := by
  have hup : (part.map Char.toUpper).map charByte = part.map charByte := by
    rw [List.map_map]
    refine List.map_congr_left fun c _ => ?_
    cases hc : isAscii c with
    | true => exact charByte_of_ascii hc
    | false => rw [Function.comp,toUpper_of_other hc]
  have hall : (part.map Char.toUpper).all isAscii = part.all isAscii := by
    rw [List.all_map]
    exact congrArg _ (funext fun c => isAscii_toUpper)
  have hcapital : ∀ c ∈ part.map Char.toUpper, isAscii c = true → charByte c = UInt8.ofNat c.toNat := by
    intro c hc hascii
    obtain ⟨a,-,rfl⟩ := List.mem_map.mp hc
    exact charByte_toUpper (by rwa [isAscii_toUpper] at hascii)
  have hn := length_toUpper h
  have hle := @length_le_utf8 (part.map Char.toUpper)
  rw [← hup,← hall]
  generalize part.map Char.toUpper = s at hcapital hn hle ⊢
  constructor
  · intro heq
    rw [padded_eq_iff hn (by rw [List.length_map]; omega),List.length_map] at heq
    have hs : utf8 s = s.map charByte ++ List.replicate ((utf8 s).length - s.length) 0x20 := by
      have htake := congrArg (List.take (utf8 s).length) heq
      rw [List.take_left,List.take_append,List.length_map,List.take_of_length_le (by rwa [List.length_map]),List.take_replicate,
        Nat.min_eq_left (by omega)] at htake
      exact htake
    have := utf8_ne_charBytes hs
    exact all_ascii_of_length (by omega)
  · intro hs
    rw [plain_codec hcapital hs]

end Parts
section Split
variable {name stem ext : List Char}

theorem splitLastDot_eq_none : splitLastDot name = none ↔ '.' ∉ name := by
  induction name with
  | nil => exact ⟨fun _ => List.not_mem_nil,fun _ => rfl⟩
  | cons c cs ih =>
    rw [splitLastDot_cons,List.mem_cons,not_or,← ih]
    cases splitLastDot cs with
    | some p => simp
    | none => simp [eq_comm]

theorem splitLastDot_append (h : '.' ∉ ext) : splitLastDot (stem ++ '.' :: ext) = some (stem,ext) := by
  induction stem with
  | nil =>
    rw [List.nil_append,splitLastDot_cons,splitLastDot_eq_none.mpr h]
    rfl
  | cons c cs ih => rw [List.cons_append,splitLastDot_cons,ih]

theorem splitLastDot_some (h : splitLastDot name = some (stem,ext)) : name = stem ++ '.' :: ext ∧ '.' ∉ ext := by
  induction name generalizing stem with
  | nil => cases h
  | cons c cs ih =>
    rw [splitLastDot_cons] at h
    cases hcs : splitLastDot cs with
    | some p =>
      rw [hcs] at h
      cases h
      obtain ⟨heq,hext⟩ := ih hcs
      exact ⟨congrArg _ heq,hext⟩
    | none =>
      rw [hcs] at h
      dsimp only at h
      split_ifs at h with hc
      cases h
      exact ⟨by rw [hc]; rfl,splitLastDot_eq_none.mp hcs⟩

/-- The stem of a name and its extension, which is empty where there is no dot. -/
def nameParts (name : List Char) : List Char × List Char := (splitLastDot name).getD (name,[])

theorem isValidFilename_iff : isValidFilename name = true ↔ name ≠ [] ∧ name.head? ≠ some '.' ∧
    (utf8 (nameParts name).1).length ≤ maxNameLength ∧ (utf8 (nameParts name).2).length ≤ maxExtLength := by
  rw [isValidFilename,nameParts]
  cases splitLastDot name with
  | none => simp [and_assoc]
  | some p => simp [and_assoc]

/-- The parts of a valid name fit into the fields of an entry. -/
theorem nameParts_fit (h : isValidFilename name = true) :
    (utf8 (nameParts name).1).length ≤ maxNameLength ∧ (utf8 (nameParts name).2).length ≤ maxExtLength :=
  (isValidFilename_iff.1 h).2.2

theorem toFat32Name_of_valid (h : isValidFilename name = true) : toFat32Name name =
    .ok ((padded 8 ((nameParts name).1.map charByte)).toList ++ (padded 3 ((nameParts name).2.map charByte)).toList) := by
  obtain ⟨hstem,hext⟩ := nameParts_fit h
  rw [nameParts] at hstem hext
  rw [toFat32Name,if_neg (by rw [h]; exact Bool.false_ne_true),nameParts]
  simp only [if_neg (Nat.not_lt.mpr hstem),if_neg (Nat.not_lt.mpr hext)]

theorem toFat32Name_eq_ok {l : List UInt8} (h : toFat32Name name = .ok l) : isValidFilename name = true := by
  by_contra hv
  rw [toFat32Name,if_pos (by simp [Bool.not_eq_true _ ▸ hv])] at h
  cases h

namespace DirectoryEntry
variable {e : DirectoryEntry}

/-- The 11 bytes of the name. -/
def fullName (e : DirectoryEntry) : List UInt8 := e.name.toList ++ e.extension.toList

theorem setFilename_of_valid (h : isValidFilename name = true) : e.setFilename name = .ok { e with
    name := padded 8 (utf8 ((nameParts name).1.map Char.toUpper))
    extension := padded 3 (utf8 ((nameParts name).2.map Char.toUpper)) } := by
  obtain ⟨hstem,hext⟩ := nameParts_fit h
  rw [nameParts] at hstem hext ⊢
  rw [setFilename]
  cases hsplit : splitLastDot name with
  | none =>
    rw [hsplit] at hstem hext
    simp only [Option.getD_none,utf8_nil] at hstem hext ⊢
    rw [if_neg (Nat.not_lt.mpr hstem),if_neg (Nat.not_lt.mpr hext),utf8_toUpper]
    rfl
  | some p =>
    rw [hsplit] at hstem hext
    simp only [Option.getD_some] at hstem hext ⊢
    rw [if_neg (Nat.not_lt.mpr hstem),if_neg (Nat.not_lt.mpr hext),utf8_toUpper,utf8_toUpper]

end DirectoryEntry

theorem toFat32Name_iff {a : List.Vector UInt8 8} {b : List.Vector UInt8 3} :
    toFat32Name name = .ok (a.toList ++ b.toList) ↔ isValidFilename name = true ∧
      a = padded 8 ((nameParts name).1.map charByte) ∧ b = padded 3 ((nameParts name).2.map charByte) := by
  constructor
  · intro h
    have hv := toFat32Name_eq_ok h
    rw [toFat32Name_of_valid hv] at h
    obtain ⟨ha,hb⟩ := List.append_inj (Except.ok.inj h) (by simp)
    exact ⟨hv,(List.Vector.toList_injective ha).symm,(List.Vector.toList_injective hb).symm⟩
  · rintro ⟨hv,rfl,rfl⟩
    exact toFat32Name_of_valid hv

theorem all_nameParts (P : Char → Bool) (hdot : P '.' = true) :
    ((nameParts name).1.all P && (nameParts name).2.all P) = name.all P := by
  rw [nameParts]
  cases hsplit : splitLastDot name with
  | none => rw [Option.getD_none,List.all_nil,Bool.and_true]
  | some p =>
    obtain ⟨hname,-⟩ := splitLastDot_some hsplit
    rw [Option.getD_some,hname,List.all_append,List.all_cons,hdot,Bool.true_and]

/-- Of the valid names those are looked up by the bytes they are stored under that are ASCII. -/
theorem toFat32Name_setFilename_iff {e e' : DirectoryEntry} (h : isValidFilename name = true) (hset : e.setFilename name = .ok e') :
    toFat32Name name = .ok e'.fullName ↔ name.all isAscii = true := by
  obtain ⟨hstem,hext⟩ := nameParts_fit h
  rw [DirectoryEntry.setFilename_of_valid h] at hset
  obtain rfl := Except.ok.inj hset
  refine toFat32Name_iff.trans ?_
  rw [padded_charByte_iff (n := 8) hstem,padded_charByte_iff (n := 3) hext,← Bool.and_eq_true,all_nameParts isAscii rfl]
  exact ⟨And.right,fun hall => ⟨h,hall⟩⟩

/-- The entry of an ASCII name is not born deleted. -/
theorem isDeleted_of_ascii {e e' : DirectoryEntry} (h : isValidFilename name = true) (hset : e.setFilename name = .ok e')
    (hascii : name.all isAscii = true) : e'.isDeleted = false := by
  rw [← all_nameParts isAscii rfl,Bool.and_eq_true] at hascii
  rw [DirectoryEntry.setFilename_of_valid h] at hset
  obtain rfl := Except.ok.inj hset
  have hmem : ∀ b ∈ (padded 8 (utf8 ((nameParts name).1.map Char.toUpper))).toList, b < 0x80 := by
    intro b hb
    have hall : ((nameParts name).1.map Char.toUpper).all isAscii = true := by
      rw [List.all_map]
      exact (congrArg _ (funext fun c => isAscii_toUpper)).trans hascii.1
    rcases List.mem_append.mp (List.mem_of_mem_take hb) with hb | hb
    · rw [utf8_ascii hall] at hb
      obtain ⟨c,hc,rfl⟩ := List.mem_map.mp hb
      have hlt : c.toNat < 128 := by simpa [isAscii] using List.all_eq_true.mp hall c hc
      rw [UInt8.lt_iff_toNat_lt,UInt8.toNat_ofNat',Nat.mod_eq_of_lt (by omega)]
      exact hlt
    · rw [List.eq_of_mem_replicate hb]
      decide
  refine beq_eq_false_iff_ne.mpr fun hdel => ?_
  have hlt := hmem _ (List.Vector.head_mem _)
  rw [show List.Vector.head _ = (0xE5 : UInt8) from hdel] at hlt
  exact absurd hlt (by decide)

/-- The listed spelling of a name. -/
def shownName (name : List Char) : List Char :=
  if partText (nameParts name).2 = [] then partText (nameParts name).1
  else partText (nameParts name).1 ++ '.' ::
    (if validUtf8 (utf8 (partText (nameParts name).2)) then partText (nameParts name).2 else ['?','?','?'])

/-- The names that all three codecs agree on. -/
def plainName (name : List Char) : Bool :=
  plainPart (nameParts name).1 && plainPart (nameParts name).2 && !(partText (nameParts name).1).isEmpty
    && (!(partText (nameParts name).2).isEmpty || !(nameParts name).1.contains '.')

theorem nameParts_append (h : '.' ∉ ext) : nameParts (stem ++ '.' :: ext) = (stem,ext) := by
  rw [nameParts,splitLastDot_append h]
  rfl

theorem nameParts_of_no_dot (h : '.' ∉ name) : nameParts name = (name,[]) := by
  rw [nameParts,splitLastDot_eq_none.mpr h]
  rfl

theorem dot_not_mem_ext : '.' ∉ (nameParts name).2 := by
  rw [nameParts]
  cases h : splitLastDot name with
  | none => exact List.not_mem_nil
  | some p => exact (splitLastDot_some h).2

/-- A valid name does not start with a dot, so neither does its text. -/
theorem partText_head (h : isValidFilename name = true) : (partText (nameParts name).1).head? ≠ some '.' := by
  intro hdot
  obtain ⟨hne,hhead,-⟩ := isValidFilename_iff.mp h
  rw [partText,List.head?_takeWhile,List.head?_map,Option.filter_eq_some_iff,Option.map_eq_some_iff] at hdot
  obtain ⟨⟨c,hc,heq⟩,-⟩ := hdot
  rw [toUpper_reads.2.1.mp heq,nameParts] at hc
  cases hsplit : splitLastDot name with
  | none =>
    rw [hsplit] at hc
    exact hhead hc
  | some p =>
    rw [hsplit] at hc
    obtain ⟨hname,-⟩ := splitLastDot_some hsplit
    refine hhead ?_
    rw [Option.getD_some] at hc
    rw [hname,List.head?_append,hc]
    rfl

namespace DirectoryEntry
variable {e e' : DirectoryEntry}

/-- An entry is listed in the spelling that is read off its stored name. -/
theorem getFilename_of_setFilename (h : isValidFilename name = true) (hset : e.setFilename name = .ok e') :
    e'.getFilename = utf8 (shownName name) := by
  obtain ⟨hstem,hext⟩ := nameParts_fit h
  rw [setFilename_of_valid h] at hset
  obtain rfl := Except.ok.inj hset
  have hname := takeWhile_stored hstem
  have hextension := takeWhile_stored hext
  rw [getFilename,getStem,shownName]
  simp only [maxNameLength,maxExtLength] at hname hextension
  unfold textByte at hname hextension
  simp only [hname,hextension]
  by_cases hnil : partText (nameParts name).2 = []
  · rw [if_pos hnil,hnil]
    rfl
  · have hpos : 0 < (utf8 (partText (nameParts name).2)).length :=
      Nat.lt_of_lt_of_le (List.length_pos_of_ne_nil hnil) length_le_utf8
    rw [if_pos hpos,if_neg hnil,utf8_append,utf8_cons,List.append_assoc]
    split_ifs <;> rfl

/-- The entry that a name is set in is found again by the spelling it is listed in. -/
def RoundTrips (e : DirectoryEntry) (name : List Char) : Prop :=
  ∃ e', e.setFilename name = .ok e' ∧ ∃ listed, utf8 listed = e'.getFilename ∧ toFat32Name listed = .ok e'.fullName

theorem roundTrips_iff_shown (h : isValidFilename name = true) : e.RoundTrips name ↔
    isValidFilename (shownName name) = true ∧
      padded 8 (utf8 ((nameParts name).1.map Char.toUpper)) = padded 8 ((nameParts (shownName name)).1.map charByte) ∧
      padded 3 (utf8 ((nameParts name).2.map Char.toUpper)) = padded 3 ((nameParts (shownName name)).2.map charByte) := by
  have hset := setFilename_of_valid (e := e) h
  have hshown := getFilename_of_setFilename h hset
  rw [← toFat32Name_iff]
  constructor
  · rintro ⟨e',hset',listed,hlisted,hfound⟩
    obtain rfl := Except.ok.inj (hset.symm.trans hset')
    rw [hshown] at hlisted
    rwa [utf8_injective hlisted] at hfound
  · exact fun hfound => ⟨_,hset,_,hshown.symm,hfound⟩

end DirectoryEntry

/-- Without a text of its extension a name is listed by its stem. -/
private theorem roundTrips_stem (h : isValidFilename name = true) (hnil : partText (nameParts name).2 = []) :
    (isValidFilename (shownName name) = true ∧
      padded 8 (utf8 ((nameParts name).1.map Char.toUpper)) = padded 8 ((nameParts (shownName name)).1.map charByte) ∧
      padded 3 (utf8 ((nameParts name).2.map Char.toUpper)) = padded 3 ((nameParts (shownName name)).2.map charByte)) ↔
    plainPart (nameParts name).1 = true ∧ plainPart (nameParts name).2 = true ∧ partText (nameParts name).1 ≠ [] ∧
      '.' ∉ (nameParts name).1 := by
  obtain ⟨hstem,hext⟩ := nameParts_fit h
  have hshown : shownName name = partText (nameParts name).1 := if_pos hnil
  rw [hshown]
  by_cases hdot : '.' ∈ partText (nameParts name).1
  · refine iff_of_false (fun hr => ?_) fun hr => hr.2.2.2 (dot_mem_of_partText hdot)
    -- the listed stem is split at its dot, so what is looked up is too short
    obtain ⟨s,hs⟩ := Option.ne_none_iff_exists'.mp fun hnone => splitLastDot_eq_none.mp hnone hdot
    obtain ⟨hsplit,-⟩ := splitLastDot_some hs
    refine padded_ne_of_short hstem ?_ hr.2.1
    rw [nameParts,hs,hsplit,Option.getD_some,List.length_map,List.length_append,List.length_cons]
    omega
  · have hstemIff := padded_text_iff hstem
    have hextIff := padded_text_iff hext
    rw [hnil] at hextIff
    rw [isValidFilename_iff,nameParts_of_no_dot hdot]
    constructor
    · rintro ⟨⟨hne,-⟩,hname,hextension⟩
      have hplain := hstemIff.mp hname
      exact ⟨hplain,hextIff.mp hextension,hne,fun hmem => hdot (dot_mem_partText hplain hmem)⟩
    · rintro ⟨hplain,hplainExt,hne,-⟩
      exact ⟨⟨hne,partText_head h,partText_length hstem,Nat.zero_le _⟩,hstemIff.mpr hplain,hextIff.mpr hplainExt⟩

/-- With a text of its extension a name is listed by both parts. -/
private theorem roundTrips_ext (h : isValidFilename name = true) (hext : partText (nameParts name).2 ≠ []) :
    (isValidFilename (shownName name) = true ∧
      padded 8 (utf8 ((nameParts name).1.map Char.toUpper)) = padded 8 ((nameParts (shownName name)).1.map charByte) ∧
      padded 3 (utf8 ((nameParts name).2.map Char.toUpper)) = padded 3 ((nameParts (shownName name)).2.map charByte)) ↔
    plainPart (nameParts name).1 = true ∧ plainPart (nameParts name).2 = true ∧ partText (nameParts name).1 ≠ [] := by
  obtain ⟨hstemLen,hextLen⟩ := nameParts_fit h
  have hstemIff := padded_text_iff hstemLen
  have hextIff := padded_text_iff hextLen
  have hdot : '.' ∉ partText (nameParts name).2 := fun hmem => dot_not_mem_ext (dot_mem_of_partText hmem)
  rw [shownName,if_neg hext]
  split_ifs with hutf
  · rw [isValidFilename_iff,nameParts_append hdot]
    refine Iff.trans (and_congr_right' (and_congr hstemIff hextIff)) ?_
    constructor
    · rintro ⟨⟨-,hhead,-⟩,hplain,hplainExt⟩
      refine ⟨hplain,hplainExt,fun hnil => hhead ?_⟩
      rw [hnil]
      rfl
    · rintro ⟨hplain,hplainExt,hne⟩
      refine ⟨⟨by simp,?_,partText_length hstemLen,partText_length hextLen⟩,hplain,hplainExt⟩
      obtain ⟨c,cs,hcs⟩ := List.exists_cons_of_ne_nil hne
      have hhead := partText_head h
      rw [hcs] at hhead ⊢
      exact hhead
  · -- an extension that is not ASCII is no plain one, whatever stands for it in the listing
    have hnot : ¬ plainPart (nameParts name).2 = true := by
      intro hplain
      obtain ⟨rest,hrest,htail⟩ := @partText_append (nameParts name).2
      rw [← plainPart_toUpper,hrest,plainPart_append partText_text htail] at hplain
      exact hutf (validUtf8_ascii hplain.1)
    refine iff_of_false (fun hr => hutf ?_) fun hr => hnot hr.2.1
    have hstored := hr.2.2
    rw [nameParts_append (by decide)] at hstored
    have htext := @takeWhile_stored 3 _ hextLen
    rw [hstored] at htext
    rw [← htext]
    have hmarks : validUtf8 ((padded 3 (['?','?','?'].map charByte)).toList.takeWhile textByte) = true := by decide
    exact hmarks

namespace DirectoryEntry
variable {e : DirectoryEntry}

/-- Of the valid names those round trip that are ASCII without zero chars, with spaces at the end of each part
only, with a stem, and with no dot in it unless there is an extension. -/
theorem roundTrips_iff (h : isValidFilename name = true) : e.RoundTrips name ↔ plainName name = true := by
  rw [roundTrips_iff_shown h,plainName]
  by_cases hext : partText (nameParts name).2 = []
  · rw [roundTrips_stem h hext,hext]
    simp [and_assoc]
  · rw [roundTrips_ext h hext]
    simp [and_assoc,hext]

theorem roundTrips_iff_plain : createEmpty.RoundTrips ['A','.','B',' '] ↔ plainName ['A','.','B',' '] = true :=
  roundTrips_iff (by decide)

/-- A name with a space inside is listed by what stands before it. -/
theorem space_not_roundTrips : isValidFilename ['A',' ','B'] = true ∧ ¬ createEmpty.RoundTrips ['A',' ','B'] := by
  refine ⟨by decide,?_⟩
  rintro ⟨e,hset,listed,hlisted,hfound⟩
  have he : e = { createEmpty with name := padded 8 [0x41,0x20,0x42], extension := padded 3 [] } :=
    (Except.ok.inj (hset.symm.trans (by decide)))
  subst he
  obtain rfl : listed = ['A'] := utf8_injective (hlisted.trans (by decide))
  revert hfound
  decide

end DirectoryEntry
/-- A new entry is stored under the bytes its name is set to. -/
theorem Fat32Driver.newEntry_fields {attrs : UInt8} {c : Nat} {e : DirectoryEntry}
    (h : Fat32Driver.newEntry name attrs c = .ok e) : ∃ new, DirectoryEntry.createEmpty.setFilename name = .ok new ∧
      e.fullName = new.fullName ∧ e.firstByte = new.firstByte ∧ e.attributes = attrs := by
  rw [newEntry] at h
  cases hset : DirectoryEntry.createEmpty.setFilename name with
  | error err =>
    rw [hset] at h
    cases h
  | ok new =>
    rw [hset] at h
    cases h
    exact ⟨new,rfl,rfl,rfl,rfl⟩

end Split
end MofuOS.Filesystem.Fat32
