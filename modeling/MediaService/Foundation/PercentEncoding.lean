import Mathlib.Data.List.Basic
import Mathlib.Data.Nat.Digits.Defs

/-! Percent-encoding. An unreserved byte stands for itself, every other byte is a percent
sign and two upper-case digits. Decoding reads digits of either case and refuses what is no
encoding. A text is encoded as the bytes of its UTF-8. -/

namespace Foundation.Percent

/-! ### Digits -/

/-- The characters that need no encoding. -/
def isUnreserved (c : Char) : Bool :=
  c.isAlphanum ∨ c = '_' ∨ c = '.' ∨ c = '-' ∨ c = '~'

def hexDigit (n : ℕ) : Char := (Nat.digitChar n).toUpper

def hexValue (c : Char) : Option ℕ :=
  if '0' ≤ c ∧ c ≤ '9' then some (c.toNat - '0'.toNat)
  else if 'a' ≤ c ∧ c ≤ 'f' then some (c.toNat - 'a'.toNat + 10)
  else if 'A' ≤ c ∧ c ≤ 'F' then some (c.toNat - 'A'.toNat + 10)
  else none

theorem hexValue_hexDigit {n : ℕ} (h : n < 16) : hexValue (hexDigit n) = some n :=
  (by decide +kernel : ∀ n : Fin 16, hexValue (hexDigit n) = some n.val) ⟨n, h⟩

/-! ### Bytes -/

def quoteByte (b : UInt8) : List Char :=
  if isUnreserved (Char.ofNat b.toNat) then [Char.ofNat b.toNat]
  else ['%', hexDigit (b.toNat / 16), hexDigit (b.toNat % 16)]

/-- `urllib.parse.quote` of bytes, with no character taken to be safe. -/
def quote (bs : List UInt8) : List Char := bs.flatMap quoteByte

def unquote : List Char → Option (List UInt8)
  | [] => some []
  | c :: cs =>
    if c = '%' then
      match cs with
      | h :: l :: rest =>
        match hexValue h, hexValue l with
        | some a, some b => (unquote rest).map (UInt8.ofNat (16 * a + b) :: ·)
        | _, _ => none
      | _ => none
    else if c.toNat < 0x80 then (unquote cs).map (UInt8.ofNat c.toNat :: ·)
    else none

/-- Made only of unreserved characters and encoded bytes. -/
inductive Encoded : List Char → Prop
  | nil : Encoded []
  | plain {c : Char} {cs : List Char} : isUnreserved c = true → Encoded cs → Encoded (c :: cs)
  | byte {a b : ℕ} {cs : List Char} : a < 16 → b < 16 → Encoded cs →
      Encoded ('%' :: hexDigit a :: hexDigit b :: cs)

theorem unreserved_byte {b : UInt8} (h : isUnreserved (Char.ofNat b.toNat) = true) :
    Char.ofNat b.toNat ≠ '%' ∧ b.toNat < 0x80 ∧ (Char.ofNat b.toNat).toNat = b.toNat :=
  (by decide +kernel : ∀ n : Fin 256, isUnreserved (Char.ofNat n) = true →
    Char.ofNat n ≠ '%' ∧ n.val < 0x80 ∧ (Char.ofNat n).toNat = n.val) ⟨b.toNat, b.toNat_lt⟩ h

theorem encoded_quote (bs : List UInt8) : Encoded (quote bs) := by
  induction bs with
  | nil => exact .nil
  | cons b bs ih =>
    rw [quote, List.flatMap_cons, quoteByte]
    have hb := b.toNat_lt
    split_ifs with hplain
    · exact .plain hplain ih
    · exact .byte (by omega) (by omega) ih

theorem unquote_plain {c : Char} (hpercent : c ≠ '%') (hascii : c.toNat < 0x80) (cs : List Char) :
    unquote (c :: cs) = (unquote cs).map (UInt8.ofNat c.toNat :: ·) := by
  rw [unquote.eq_def]
  dsimp only
  rw [if_neg hpercent, if_pos hascii]

theorem unquote_byte {a b : ℕ} (ha : a < 16) (hb : b < 16) (cs : List Char) :
    unquote ('%' :: hexDigit a :: hexDigit b :: cs) =
      (unquote cs).map (UInt8.ofNat (16 * a + b) :: ·) := by
  rw [unquote, if_pos rfl, hexValue_hexDigit ha, hexValue_hexDigit hb]

/-- Decoding undoes encoding. -/
theorem unquote_quote (bs : List UInt8) : unquote (quote bs) = some bs := by
  induction bs with
  | nil => rfl
  | cons b bs ih =>
    have hb := b.toNat_lt
    rw [quote, List.flatMap_cons, ← quote, quoteByte]
    split_ifs with hplain
    · obtain ⟨hpercent, hascii, hnat⟩ := unreserved_byte hplain
      rw [List.singleton_append, unquote_plain hpercent (by rwa [hnat]), hnat, ih, Option.map_some,
        UInt8.ofNat_toNat]
    · have hsum : 16 * (b.toNat / 16) + b.toNat % 16 = b.toNat := Nat.div_add_mod _ _
      rw [List.cons_append, List.cons_append, List.singleton_append,
        unquote_byte (by omega) (by omega), hsum, ih, Option.map_some, UInt8.ofNat_toNat]

/-! ### Text -/

/-- `urllib.parse.quote(s, safe="")`. -/
def quoteText (s : String) : String := String.ofList (quote s.toUTF8.data.toList)

/-- The text whose UTF-8 is encoded. -/
def unquoteText (s : String) : Option String :=
  (unquote s.toList).bind fun bs => String.fromUTF8? ⟨bs.toArray⟩

theorem encoded_quoteText (s : String) : Encoded (quoteText s).toList := by
  rw [quoteText, String.toList_ofList]
  exact encoded_quote _

theorem unquoteText_quoteText (s : String) : unquoteText (quoteText s) = some s := by
  have hbytes : (⟨s.toUTF8.data.toList.toArray⟩ : ByteArray) = s.toUTF8 := by
    rw [Array.toArray_toList]
  have hvalid : s.toUTF8.IsValidUTF8 := s.isValidUTF8
  rw [unquoteText, quoteText, String.toList_ofList, unquote_quote, Option.bind_some, hbytes,
    String.fromUTF8?, dif_pos hvalid]
  rfl

end Foundation.Percent
