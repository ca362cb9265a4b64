import Mathlib.Data.Nat.Digits.Lemmas
import Mathlib.Data.List.Basic

/-! JSON as Python reads and writes it. Text is characters; a string value is the code
points of a `str`, which may hold lone surrogates, since an escape can spell one. An
integer is read up to the limit on the digits of an `int`, a float is kept as the
literal that spells it, and reading stops at the nesting where the decoder gives up.
What is written is read back. -/

namespace Foundation

/-- The code points of a `str`. -/
abbrev CodePoints := List ℕ

def codePoints (s : String) : CodePoints := s.toList.map Char.toNat

/-- The text of a `str` without lone surrogates. -/
def textOf (s : CodePoints) : Option String :=
  if s.all fun c => c < 0xd800 ∨ 0xdfff < c ∧ c < 0x110000 then
    some (String.ofList (s.map Char.ofNat))
  else none

inductive Json where
  | null
  | bool (b : Bool)
  | int (i : ℤ)
  | float (literal : List Char)
  | str (s : CodePoints)
  | arr (items : List Json)
  | obj (members : List (CodePoints × Json))

namespace Json

/-- `value[key]` of an object; `none` where there is no such member. -/
def member (key : String) : Json → Option Json
  | .obj members => (members.find? fun m => m.1 = codePoints key).map Prod.snd
  | _ => none

/-! ### Writing -/

def hexDigit (n : ℕ) : Char := Nat.digitChar (n % 16)

/-- A UTF-16 unit as an escape. -/
def unitEscape (n : ℕ) : List Char :=
  ['\\', 'u', hexDigit (n / 4096), hexDigit (n / 256), hexDigit (n / 16), hexDigit n]

/-- The escapes of one letter. -/
def shortEscape : ℕ → Option Char
  | 0x22 => some '"'
  | 0x5c => some '\\'
  | 0x08 => some 'b'
  | 0x0c => some 'f'
  | 0x0a => some 'n'
  | 0x0d => some 'r'
  | 0x09 => some 't'
  | _ => none

/-- One code point, with `ensure_ascii`. -/
def dumpCodePoint (c : ℕ) : List Char :=
  match shortEscape c with
  | some e => ['\\', e]
  | none =>
    if 0x20 ≤ c ∧ c ≤ 0x7e then [Char.ofNat c]
    else if c < 0x10000 then unitEscape c
    else unitEscape (0xd800 + (c - 0x10000) / 0x400) ++ unitEscape (0xdc00 + (c - 0x10000) % 0x400)

def dumpString (s : CodePoints) : List Char := '"' :: (s.flatMap dumpCodePoint ++ ['"'])

def decimal (n : ℕ) : List Char := (Nat.digits 10 n).reverse.map Nat.digitChar

def dumpNat (n : ℕ) : List Char := if n = 0 then ['0'] else decimal n

def dumpInt : ℤ → List Char
  | .ofNat n => dumpNat n
  | .negSucc n => '-' :: dumpNat (n + 1)

mutual

/-- `json.dumps`. -/
def dumps : Json → List Char
  | .null => "null".toList
  | .bool true => "true".toList
  | .bool false => "false".toList
  | .int i => dumpInt i
  | .float literal => literal
  | .str s => dumpString s
  | .arr items => '[' :: (dumpItems items ++ [']'])
  | .obj members => '\x7b' :: (dumpMembers members ++ ['\x7d'])

def dumpItems : List Json → List Char
  | [] => []
  | [x] => dumps x
  | x :: xs => dumps x ++ ',' :: ' ' :: dumpItems xs

def dumpMembers : List (CodePoints × Json) → List Char
  | [] => []
  | [(k, v)] => dumpString k ++ ':' :: ' ' :: dumps v
  | (k, v) :: ms => dumpString k ++ ':' :: ' ' :: (dumps v ++ ',' :: ' ' :: dumpMembers ms)

end

/-! ### Reading strings and numbers -/

def isBlank (c : Char) : Bool := c = ' ' ∨ c = '\t' ∨ c = '\n' ∨ c = '\r'

def skipBlanks (cs : List Char) : List Char := cs.dropWhile isBlank

def hexValue (c : Char) : Option ℕ :=
  if '0' ≤ c ∧ c ≤ '9' then some (c.toNat - '0'.toNat)
  else if 'a' ≤ c ∧ c ≤ 'f' then some (c.toNat - 'a'.toNat + 10)
  else if 'A' ≤ c ∧ c ≤ 'F' then some (c.toNat - 'A'.toNat + 10)
  else none

/-- The unit four digits spell. -/
def unitValue (a b c d : Char) : Option ℕ :=
  match hexValue a, hexValue b, hexValue c, hexValue d with
  | some a, some b, some c, some d => some (a * 4096 + b * 256 + c * 16 + d)
  | _, _, _, _ => none

def unescape : Char → Option ℕ
  | '"' => some 0x22
  | '\\' => some 0x5c
  | '/' => some 0x2f
  | 'b' => some 0x08
  | 'f' => some 0x0c
  | 'n' => some 0x0a
  | 'r' => some 0x0d
  | 't' => some 0x09
  | _ => none

/-- The units up to the closing quote, and what follows it. -/
def scanUnits : List Char → Option (List ℕ × List Char)
  | [] => none
  | '"' :: cs => some ([], cs)
  | '\\' :: 'u' :: a :: b :: c :: d :: cs =>
    match unitValue a b c d with
    | none => none
    | some u => (scanUnits cs).map fun p => (u :: p.1, p.2)
  | '\\' :: e :: cs =>
    match unescape e with
    | none => none
    | some u => (scanUnits cs).map fun p => (u :: p.1, p.2)
  | c :: cs =>
    if c = '\\' ∨ c.toNat < 0x20 then none
    else (scanUnits cs).map fun p => (c.toNat :: p.1, p.2)

def isHigh (u : ℕ) : Bool := 0xd800 ≤ u ∧ u ≤ 0xdbff

def isLow (u : ℕ) : Bool := 0xdc00 ≤ u ∧ u ≤ 0xdfff

/-- A high surrogate and the low one after it are one code point. -/
def joinSurrogates : List ℕ → CodePoints
  | [] => []
  | [u] => [u]
  | u :: v :: us =>
    if isHigh u ∧ isLow v then
      (0x10000 + (u - 0xd800) * 0x400 + (v - 0xdc00)) :: joinSurrogates us
    else u :: joinSurrogates (v :: us)

def scanString (cs : List Char) : Option (CodePoints × List Char) :=
  (scanUnits cs).map fun p => (joinSurrogates p.1, p.2)

def isDigit (c : Char) : Bool := '0' ≤ c ∧ c ≤ '9'

/-- The integer part: a zero, or digits that do not begin with one. -/
def intPart : List Char → Option (List Char × List Char)
  | [] => none
  | c :: cs =>
    if c = '0' then some (['0'], cs)
    else if isDigit c then some ((c :: cs).takeWhile isDigit, (c :: cs).dropWhile isDigit)
    else none

/-- The fraction, if a digit follows the point. -/
def fractionPart (cs : List Char) : List Char × List Char :=
  match cs with
  | '.' :: ds =>
    if ds.takeWhile isDigit = [] then ([], cs)
    else ('.' :: ds.takeWhile isDigit, ds.dropWhile isDigit)
  | _ => ([], cs)

/-- The exponent, if a digit follows the letter and its sign. -/
def exponentPart (cs : List Char) : List Char × List Char :=
  match cs with
  | e :: ds =>
    if e = 'e' ∨ e = 'E' then
      let sign := ds.takeWhile fun c => c = '+' ∨ c = '-'
      let sign := sign.take 1
      let ds := ds.drop sign.length
      if ds.takeWhile isDigit = [] then ([], cs)
      else (e :: sign ++ ds.takeWhile isDigit, ds.dropWhile isDigit)
    else ([], cs)
  | [] => ([], cs)

def natOfDigits (ds : List Char) : ℕ := ds.foldl (fun n c => 10 * n + (c.toNat - '0'.toNat)) 0

/-- The digits an `int` is read from at most. -/
def maxIntDigits : ℕ := 4300

/-- A number, and what follows it. -/
def scanNumber (cs : List Char) : Option (Json × List Char) :=
  let sign := if cs.head? = some '-' then ['-'] else []
  match intPart (cs.drop sign.length) with
  | none => none
  | some (ds, rest) =>
    let (fraction, rest) := fractionPart rest
    let (exponent, rest) := exponentPart rest
    if fraction = [] ∧ exponent = [] then
      if maxIntDigits < ds.length then none
      else some (.int (if sign = [] then natOfDigits ds else -natOfDigits ds), rest)
    else some (.float (sign ++ ds ++ fraction ++ exponent), rest)

/-! ### Reading values -/

/-- How reading fails: on the text, or on its nesting. -/
inductive ReadError where
  | valueError | recursionError
  deriving DecidableEq

/-- `d[k] = v` on an ordered dictionary. -/
def setMember (ms : List (CodePoints × Json)) (k : CodePoints) (v : Json) :
    List (CodePoints × Json) :=
  if k ∈ ms.map Prod.fst then ms.map fun m => if m.1 = k then (k, v) else m else ms ++ [(k, v)]

mutual

/-- One value, nested at most `depth` deep. -/
def scanOnce : ℕ → ℕ → List Char → Except ReadError (Json × List Char)
  | 0, _, _ => .error .valueError
  | fuel + 1, depth, cs =>
    match cs with
    | [] => .error .valueError
    | '"' :: cs =>
      match scanString cs with
      | none => .error .valueError
      | some (s, rest) => .ok (.str s, rest)
    | '[' :: cs =>
      match depth with
      | 0 => .error .recursionError
      | depth + 1 =>
        match skipBlanks cs with
        | ']' :: rest => .ok (.arr [], rest)
        | cs =>
          match scanItems fuel depth cs with
          | .error e => .error e
          | .ok (items, rest) => .ok (.arr items, rest)
    | '\x7b' :: cs =>
      match depth with
      | 0 => .error .recursionError
      | depth + 1 =>
        match skipBlanks cs with
        | '\x7d' :: rest => .ok (.obj [], rest)
        | cs =>
          match scanMembers fuel depth [] cs with
          | .error e => .error e
          | .ok (members, rest) => .ok (.obj members, rest)
    | 'n' :: 'u' :: 'l' :: 'l' :: rest => .ok (.null, rest)
    | 't' :: 'r' :: 'u' :: 'e' :: rest => .ok (.bool true, rest)
    | 'f' :: 'a' :: 'l' :: 's' :: 'e' :: rest => .ok (.bool false, rest)
    | 'N' :: 'a' :: 'N' :: rest => .ok (.float "NaN".toList, rest)
    | 'I' :: 'n' :: 'f' :: 'i' :: 'n' :: 'i' :: 't' :: 'y' :: rest =>
      .ok (.float "Infinity".toList, rest)
    | '-' :: 'I' :: 'n' :: 'f' :: 'i' :: 'n' :: 'i' :: 't' :: 'y' :: rest =>
      .ok (.float "-Infinity".toList, rest)
    | cs =>
      match scanNumber cs with
      | none => .error .valueError
      | some p => .ok p

/-- The items of an array that has some, up to its end. -/
def scanItems : ℕ → ℕ → List Char → Except ReadError (List Json × List Char)
  | 0, _, _ => .error .valueError
  | fuel + 1, depth, cs =>
    match scanOnce fuel depth cs with
    | .error e => .error e
    | .ok (x, rest) =>
      match skipBlanks rest with
      | ']' :: rest => .ok ([x], rest)
      | ',' :: rest =>
        match scanItems fuel depth (skipBlanks rest) with
        | .error e => .error e
        | .ok (xs, rest) => .ok (x :: xs, rest)
      | _ => .error .valueError

/-- The members of an object that has some, up to its end, added to those read. -/
def scanMembers : ℕ → ℕ → List (CodePoints × Json) → List Char →
    Except ReadError (List (CodePoints × Json) × List Char)
  | 0, _, _, _ => .error .valueError
  | fuel + 1, depth, ms, cs =>
    match cs with
    | '"' :: cs =>
      match scanString cs with
      | none => .error .valueError
      | some (k, rest) =>
        match skipBlanks rest with
        | ':' :: rest =>
          match scanOnce fuel depth (skipBlanks rest) with
          | .error e => .error e
          | .ok (v, rest) =>
            match skipBlanks rest with
            | '\x7d' :: rest => .ok (setMember ms k v, rest)
            | ',' :: rest => scanMembers fuel depth (setMember ms k v) (skipBlanks rest)
            | _ => .error .valueError
        | _ => .error .valueError
    | _ => .error .valueError

end

/-- `json.loads`, on a decoder that gives up below `depth` levels. -/
def loads (depth : ℕ) (text : List Char) : Except ReadError Json :=
  if text.head? = some '\ufeff' then .error .valueError
  else
    match scanOnce (2 * text.length + 1) depth (skipBlanks text) with
    | .error e => .error e
    | .ok (v, rest) => if skipBlanks rest = [] then .ok v else .error .valueError

/-! ### What is written is read back -/

/-- A code point that is no surrogate. -/
def IsScalar (c : ℕ) : Prop := c < 0xd800 ∨ 0xdfff < c ∧ c < 0x110000

/-- A value that is written so that it is read back, nested at most `depth` deep: no
floats, no lone surrogates, no integer beyond the limit, no key twice. -/
inductive Plain : ℕ → Json → Prop
  | null {depth : ℕ} : Plain depth .null
  | bool {depth : ℕ} (b : Bool) : Plain depth (.bool b)
  | int {depth : ℕ} (i : ℤ) : (dumpNat i.natAbs).length ≤ maxIntDigits → Plain depth (.int i)
  | str {depth : ℕ} (s : CodePoints) : (∀ c ∈ s, IsScalar c) → Plain depth (.str s)
  | arr {depth : ℕ} (items : List Json) : (∀ x ∈ items, Plain depth x) →
      Plain (depth + 1) (.arr items)
  | obj {depth : ℕ} (members : List (CodePoints × Json)) :
      (∀ m ∈ members, ∀ c ∈ m.1, IsScalar c) → (members.map Prod.fst).Nodup →
      (∀ m ∈ members, Plain depth m.2) → Plain (depth + 1) (.obj members)

/-- What may follow a value inside another: its end, or the next. -/
def Closes (rest : List Char) : Prop :=
  ∀ c ∈ rest.head?, c = ',' ∨ c = ']' ∨ c = '\x7d'

theorem codePoints_scalar (s : String) : ∀ c ∈ codePoints s, IsScalar c := by
  intro c hc
  obtain ⟨d, -, rfl⟩ := List.mem_map.mp hc
  rcases d.valid with h | ⟨h, h'⟩
  · exact .inl h
  · exact .inr ⟨h, h'⟩

theorem textOf_codePoints (s : String) : textOf (codePoints s) = some s := by
  rw [textOf, if_pos, codePoints, List.map_map]
  · have hid : Char.ofNat ∘ Char.toNat = id := funext fun c => Char.ofNat_toNat c
    rw [hid, List.map_id, String.ofList_toList]
  · rw [List.all_eq_true]
    exact fun c hc => decide_eq_true (codePoints_scalar s c hc)

section Strings

theorem hexValue_hexDigit (n : ℕ) : hexValue (hexDigit n) = some (n % 16) :=
  (by decide +kernel : ∀ n : Fin 16, hexValue (Nat.digitChar n) = some n.val)
    ⟨n % 16, Nat.mod_lt n (by decide)⟩

/-- An escaped unit is read as itself. -/
theorem scanUnits_unitEscape {u : ℕ} (h : u < 0x10000) (cs : List Char) :
    scanUnits (unitEscape u ++ cs) = (scanUnits cs).map fun p => (u :: p.1, p.2) := by
  have hu : u / 4096 % 16 * 4096 + u / 256 % 16 * 256 + u / 16 % 16 * 16 + u % 16 = u := by omega
  unfold unitEscape
  simp only [List.cons_append, List.nil_append]
  rw [scanUnits]
  simp only [unitValue, hexValue_hexDigit, hu]

theorem unescape_shortEscape {c : ℕ} {e : Char} (h : shortEscape c = some e) :
    unescape e = some c ∧ e ≠ 'u' := by
  unfold shortEscape at h
  split at h <;> cases h <;> exact ⟨rfl, by decide⟩

theorem scanUnits_shortEscape {c : ℕ} {e : Char} (h : shortEscape c = some e) (cs : List Char) :
    scanUnits ('\\' :: e :: cs) = (scanUnits cs).map fun p => (c :: p.1, p.2) := by
  obtain ⟨hun, hu⟩ := unescape_shortEscape h
  rw [scanUnits.eq_4, hun]
  rintro a b c' d cs' rfl -
  exact hu rfl

/-- The units a code point is written in. -/
def units (c : ℕ) : List ℕ :=
  if c < 0x10000 then [c] else [0xd800 + (c - 0x10000) / 0x400, 0xdc00 + (c - 0x10000) % 0x400]

theorem scanUnits_dumpCodePoint {c : ℕ} (h : IsScalar c) (cs : List Char) :
    scanUnits (dumpCodePoint c ++ cs) = (scanUnits cs).map fun p => (units c ++ p.1, p.2) := by
  have hlt : c < 0x110000 := by
    unfold IsScalar at h
    omega
  unfold dumpCodePoint units
  cases hs : shortEscape c with
  | some e =>
    have hsmall : c < 0x10000 := by
      unfold shortEscape at hs
      split at hs <;> first | omega | cases hs
    simp only [List.cons_append, List.nil_append, if_pos hsmall]
    exact scanUnits_shortEscape hs cs
  | none =>
    dsimp only
    split
    · rename_i hprintable
      have hval : (Char.ofNat c).toNat = c :=
        (by decide : ∀ n : Fin 128, (Char.ofNat n).toNat = n.val) ⟨c, by omega⟩
      have hquote : Char.ofNat c ≠ '"' := by
        intro he
        rw [he] at hval
        subst hval
        cases hs
      have hslash : Char.ofNat c ≠ '\\' := by
        intro he
        rw [he] at hval
        subst hval
        cases hs
      rw [if_pos (by omega), List.cons_append, List.nil_append, scanUnits.eq_5 _ _ hquote]
      · rw [if_neg (by rw [hval]; exact not_or.mpr ⟨hslash, by omega⟩), hval]
        rfl
      · rintro _ _ _ _ _ he -
        exact hslash he
      · rintro _ _ he -
        exact hslash he
    · split
      · rename_i hsmall
        exact scanUnits_unitEscape hsmall cs
      · rename_i hbig
        rw [List.append_assoc, scanUnits_unitEscape (by omega), scanUnits_unitEscape (by omega),
          Option.map_map]
        rfl

theorem scanUnits_flatMap {s : CodePoints} (h : ∀ c ∈ s, IsScalar c) (cs : List Char) :
    scanUnits (s.flatMap dumpCodePoint ++ '"' :: cs) = some (s.flatMap units, cs) := by
  induction s with
  | nil => rfl
  | cons c s ih =>
    rw [List.flatMap_cons, List.append_assoc, scanUnits_dumpCodePoint (h c List.mem_cons_self),
      ih fun d hd => h d (List.mem_cons_of_mem c hd)]
    rfl

theorem joinSurrogates_cons {c : ℕ} (h : isHigh c = false) (us : List ℕ) :
    joinSurrogates (c :: us) = c :: joinSurrogates us := by
  cases us with
  | nil => rfl
  | cons v us => rw [joinSurrogates, if_neg (by simp [h])]

theorem joinSurrogates_units {c : ℕ} (h : IsScalar c) (us : List ℕ) :
    joinSurrogates (units c ++ us) = c :: joinSurrogates us := by
  unfold IsScalar at h
  unfold units
  split
  · refine joinSurrogates_cons ?_ us
    simp only [isHigh, decide_eq_false_iff_not]
    omega
  · have hjoin : 0x10000 + (0xd800 + (c - 0x10000) / 0x400 - 0xd800) * 0x400 +
        (0xdc00 + (c - 0x10000) % 0x400 - 0xdc00) = c := by omega
    simp only [List.cons_append, List.nil_append]
    rw [joinSurrogates, if_pos, hjoin]
    simp only [isHigh, isLow, decide_eq_true_eq]
    omega

theorem joinSurrogates_flatMap {s : CodePoints} (h : ∀ c ∈ s, IsScalar c) :
    joinSurrogates (s.flatMap units) = s := by
  induction s with
  | nil => rfl
  | cons c s ih =>
    rw [List.flatMap_cons, joinSurrogates_units (h c List.mem_cons_self),
      ih fun d hd => h d (List.mem_cons_of_mem c hd)]

/-- A written string is read as itself. -/
theorem scanString_flatMap {s : CodePoints} (h : ∀ c ∈ s, IsScalar c) (cs : List Char) :
    scanString (s.flatMap dumpCodePoint ++ '"' :: cs) = some (s, cs) := by
  rw [scanString, scanUnits_flatMap h, Option.map_some, joinSurrogates_flatMap h]

end Strings

section Numbers

theorem isDigit_digitChar {d : ℕ} (h : d < 10) : isDigit (Nat.digitChar d) = true :=
  (by decide : ∀ d : Fin 10, isDigit (Nat.digitChar d) = true) ⟨d, h⟩

theorem value_digitChar {d : ℕ} (h : d < 10) : (Nat.digitChar d).toNat - '0'.toNat = d :=
  (by decide : ∀ d : Fin 10, (Nat.digitChar d).toNat - '0'.toNat = d.val) ⟨d, h⟩

theorem natOfDigits_reverse {ds : List ℕ} (h : ∀ d ∈ ds, d < 10) :
    natOfDigits (ds.reverse.map Nat.digitChar) = Nat.ofDigits 10 ds := by
  unfold natOfDigits
  rw [List.map_reverse, List.foldl_reverse]
  induction ds with
  | nil => rfl
  | cons d ds ih =>
    rw [List.map_cons, List.foldr_cons, ih fun e he => h e (List.mem_cons_of_mem d he),
      Nat.ofDigits_cons, value_digitChar (h d List.mem_cons_self)]
    omega

theorem natOfDigits_dumpNat (n : ℕ) : natOfDigits (dumpNat n) = n := by
  unfold dumpNat decimal
  split
  · rename_i h
    rw [h]
    rfl
  · rw [natOfDigits_reverse fun d hd => Nat.digits_lt_base (by decide) hd, Nat.ofDigits_digits]

theorem isDigit_of_mem_dumpNat {n : ℕ} {c : Char} (h : c ∈ dumpNat n) : isDigit c = true := by
  unfold dumpNat decimal at h
  split at h
  · rw [List.mem_singleton.mp h]
    rfl
  · obtain ⟨d, hd, rfl⟩ := List.mem_map.mp h
    exact isDigit_digitChar (Nat.digits_lt_base (by decide) (List.mem_reverse.mp hd))

theorem takeWhile_append {p : Char → Bool} {ds rest : List Char} (hds : ∀ c ∈ ds, p c = true)
    (hrest : ∀ c ∈ rest.head?, p c = false) :
    (ds ++ rest).takeWhile p = ds ∧ (ds ++ rest).dropWhile p = rest := by
  have hnil : rest.takeWhile p = [] ∧ rest.dropWhile p = rest := by
    cases rest with
    | nil => exact ⟨rfl, rfl⟩
    | cons c rest => simp [hrest c rfl]
  rw [List.takeWhile_append_of_pos hds, List.dropWhile_append_of_pos hds, hnil.1, hnil.2,
    List.append_nil]
  exact ⟨rfl, rfl⟩

theorem Closes.not_digit {rest : List Char} (h : Closes rest) :
    ∀ c ∈ rest.head?, isDigit c = false := by
  intro c hc
  rcases h c hc with rfl | rfl | rfl <;> rfl

/-- A written number begins with a digit that does not make it shorter. -/
theorem dumpNat_head (n : ℕ) : ∃ c ds, dumpNat n = c :: ds ∧ isDigit c = true ∧
    (c = '0' → ds = []) := by
  by_cases h : n = 0
  · exact ⟨'0', [], by simp [dumpNat, h], rfl, fun _ => rfl⟩
  · have hne : Nat.digits 10 n ≠ [] := Nat.digits_ne_nil_iff_ne_zero.mpr h
    have hlast := Nat.getLast_digit_ne_zero 10 h
    have hlt := Nat.digits_lt_base (b := 10) (by decide) (List.getLast_mem hne)
    refine ⟨Nat.digitChar ((Nat.digits 10 n).getLast hne),
      ((Nat.digits 10 n).dropLast).reverse.map Nat.digitChar, ?_, isDigit_digitChar hlt, ?_⟩
    · rw [dumpNat, if_neg h, decimal]
      conv_lhs => rw [← List.dropLast_append_getLast hne]
      rw [List.reverse_append, List.map_append]
      rfl
    · intro hzero
      have hdigit := value_digitChar hlt
      rw [hzero] at hdigit
      exact absurd hdigit.symm hlast

theorem intPart_dumpNat (n : ℕ) {rest : List Char} (h : Closes rest) :
    intPart (dumpNat n ++ rest) = some (dumpNat n, rest) := by
  obtain ⟨c, ds, he, hc, hzero⟩ := dumpNat_head n
  have hall := fun d => isDigit_of_mem_dumpNat (n := n) (c := d)
  rw [he] at hall ⊢
  rw [List.cons_append, intPart]
  split
  · rename_i h0
    rw [hzero h0, h0]
    rfl
  · obtain ⟨ht, hd⟩ := takeWhile_append hall h.not_digit
    rw [List.cons_append] at ht hd
    rw [ht, hd]

theorem fractionPart_of_closes {rest : List Char} (h : Closes rest) :
    fractionPart rest = ([], rest) := by
  unfold fractionPart
  split
  · have := h '.' rfl
    simp at this
  · rfl

theorem exponentPart_of_closes {rest : List Char} (h : Closes rest) :
    exponentPart rest = ([], rest) := by
  cases rest with
  | nil => rfl
  | cons c rest =>
    have hc := h c rfl
    rw [exponentPart, if_neg]
    rintro (rfl | rfl) <;> simp at hc

/-- A written integer is read as itself. -/
theorem scanNumber_dumpInt {i : ℤ} (hi : (dumpNat i.natAbs).length ≤ maxIntDigits)
    {rest : List Char} (h : Closes rest) :
    scanNumber (dumpInt i ++ rest) = some (.int i, rest) := by
  have hread : ∀ n : ℕ, intPart (dumpNat n ++ rest) = some (dumpNat n, rest) := fun n =>
    intPart_dumpNat n h
  unfold scanNumber
  cases i with
  | ofNat n =>
    obtain ⟨c, ds, he, hc, -⟩ := dumpNat_head n
    have hsign : (dumpInt (.ofNat n) ++ rest).head? ≠ some '-' := by
      rw [dumpInt, he]
      rintro ⟨⟩
      cases hc
    rw [if_neg hsign]
    simp only [dumpInt, List.length_nil, List.drop_zero, hread, fractionPart_of_closes h,
      exponentPart_of_closes h, and_self, if_true, natOfDigits_dumpNat]
    rw [if_neg (by exact Nat.not_lt.mpr hi)]
    rfl
  | negSucc n =>
    have hsign : (dumpInt (.negSucc n) ++ rest).head? = some '-' := rfl
    rw [if_pos hsign]
    simp only [dumpInt, List.length_cons, List.length_nil, List.cons_append, List.drop_succ_cons,
      List.drop_zero, hread, fractionPart_of_closes h, exponentPart_of_closes h, and_self, if_true,
      natOfDigits_dumpNat]
    rw [if_neg (by exact Nat.not_lt.mpr hi)]
    rfl

end Numbers

section Values

variable {v : Json} {rest : List Char} {depth fuel : ℕ}

theorem skipBlanks_cons {c : Char} (h : isBlank c = false) (cs : List Char) :
    skipBlanks (c :: cs) = c :: cs :=
  List.dropWhile_cons_of_neg (by simp [h])

/-- A number begins with a digit, or with a sign and a digit. -/
def NumberHead (cs : List Char) : Prop :=
  ∃ c ds, cs = c :: ds ∧ (isDigit c = true ∨ c = '-' ∧ ∃ d es, ds = d :: es ∧ isDigit d = true)

theorem numberHead_dumpInt (i : ℤ) (rest : List Char) : NumberHead (dumpInt i ++ rest) := by
  cases i with
  | ofNat n =>
    obtain ⟨c, ds, he, hc, -⟩ := dumpNat_head n
    exact ⟨c, ds ++ rest, by rw [dumpInt, he, List.cons_append], .inl hc⟩
  | negSucc n =>
    obtain ⟨c, ds, he, hc, -⟩ := dumpNat_head (n + 1)
    exact ⟨'-', dumpNat (n + 1) ++ rest, rfl, .inr ⟨rfl, c, ds ++ rest, by rw [he]; rfl, hc⟩⟩

theorem scanOnce_number {cs : List Char} (h : NumberHead cs) :
    scanOnce (fuel + 1) depth cs =
      match scanNumber cs with
      | none => .error .valueError
      | some p => .ok p := by
  obtain ⟨c, ds, rfl, hc⟩ := h
  have hne : ∀ e es, isDigit e = false → e ≠ '-' → c :: ds = e :: es → False := by
    rintro e es he hminus ⟨rfl, -⟩
    rcases hc with hc | ⟨rfl, -⟩
    · simp [he] at hc
    · exact hminus rfl
  rw [scanOnce.eq_14]
  · rintro ⟨⟩
  · exact fun es => hne _ es rfl (by decide)
  · exact fun es => hne _ es rfl (by decide)
  · exact fun es => hne _ es rfl (by decide)
  · exact fun es => hne _ _ rfl (by decide)
  · exact fun es => hne _ _ rfl (by decide)
  · exact fun es => hne _ _ rfl (by decide)
  · exact fun es => hne _ _ rfl (by decide)
  · exact fun es => hne _ _ rfl (by decide)
  · rintro es ⟨⟩
    rcases hc with hc | ⟨-, d, es', ⟨⟩, hd⟩
    · cases hc
    · cases hd

theorem dumps_head (h : Plain depth v) :
    ∃ c cs, dumps v = c :: cs ∧ isBlank c = false ∧ c ≠ ']' ∧ c ≠ '\x7d' ∧ c ≠ '\ufeff' := by
  cases h with
  | null => exact ⟨_, _, rfl, by decide⟩
  | bool b => cases b <;> exact ⟨_, _, rfl, by decide⟩
  | int i hi =>
    have hplain : ∀ {c}, isDigit c = true ∨ c = '-' →
        isBlank c = false ∧ c ≠ ']' ∧ c ≠ '\x7d' ∧ c ≠ '\ufeff' := by
      rintro c (hc | rfl)
      · refine ⟨?_, ?_, ?_, ?_⟩
        · by_contra hblank
          simp only [isBlank, Bool.not_eq_false, decide_eq_true_eq] at hblank
          rcases hblank with rfl | rfl | rfl | rfl <;> cases hc
        all_goals
          rintro rfl
          cases hc
      · decide
    obtain ⟨c, ds, he, hc⟩ := numberHead_dumpInt i []
    rw [List.append_nil] at he
    exact ⟨c, ds, he, hplain (hc.imp id And.left)⟩
  | str s hs => exact ⟨_, _, rfl, by decide⟩
  | arr items _ => exact ⟨_, _, rfl, by decide⟩
  | obj members _ _ _ => exact ⟨_, _, rfl, by decide⟩

/-- What is read of a value that is written where another may follow. -/
def ReadsBack (depth : ℕ) (v : Json) : Prop :=
  ∀ {fuel : ℕ} {rest : List Char}, 2 * (dumps v).length + 1 ≤ fuel → Closes rest →
    scanOnce fuel depth (dumps v ++ rest) = .ok (v, rest)

theorem closes_cons {c : Char} (h : c = ',' ∨ c = ']' ∨ c = '\x7d') (rest : List Char) :
    Closes (c :: rest) := by
  rintro d ⟨⟩
  exact h

theorem scanItems_dumpItems {items : List Json} (hne : items ≠ [])
    (hplain : ∀ x ∈ items, Plain depth x) (hread : ∀ x ∈ items, ReadsBack depth x)
    (hfuel : 2 * (dumpItems items).length + 2 ≤ fuel) :
    scanItems fuel depth (dumpItems items ++ ']' :: rest) = .ok (items, rest) := by
  induction items generalizing fuel with
  | nil => exact absurd rfl hne
  | cons x xs ih =>
    obtain ⟨fuel, rfl⟩ := Nat.exists_eq_add_of_le' (Nat.le_of_add_left_le hfuel)
    cases xs with
    | nil =>
      rw [dumpItems] at hfuel ⊢
      rw [scanItems, hread x List.mem_cons_self (by omega) (closes_cons (by simp) _)]
      dsimp only
      rw [skipBlanks_cons rfl]
      rfl
    | cons y ys =>
      have hdump : dumpItems (x :: y :: ys) = dumps x ++ ',' :: ' ' :: dumpItems (y :: ys) := by
        rw [dumpItems]
        rintro ⟨⟩
      have hlength := congrArg List.length hdump
      simp only [List.length_append, List.length_cons] at hlength
      obtain ⟨c, cs, hc, hblank, -⟩ := dumps_head (hplain y (by simp))
      have hskip : skipBlanks (' ' :: (dumpItems (y :: ys) ++ ']' :: rest)) =
          dumpItems (y :: ys) ++ ']' :: rest := by
        have : ∃ ds, dumpItems (y :: ys) = c :: ds := by
          cases ys with
          | nil => exact ⟨cs, by rw [dumpItems, hc]⟩
          | cons z zs => exact ⟨_, by rw [dumpItems, hc, List.cons_append]; rintro ⟨⟩⟩
        obtain ⟨ds, hds⟩ := this
        rw [hds, List.cons_append]
        exact skipBlanks_cons hblank _
      rw [hdump, List.append_assoc, List.cons_append, List.cons_append, scanItems,
        hread x List.mem_cons_self (by omega) (closes_cons (by simp) _)]
      dsimp only
      rw [skipBlanks_cons rfl]
      simp only
      rw [hskip, ih (by simp) (fun z hz => hplain z (List.mem_cons_of_mem x hz))
        (fun z hz => hread z (List.mem_cons_of_mem x hz)) (by omega)]

theorem setMember_of_not_mem {ms : List (CodePoints × Json)} {k : CodePoints}
    (h : k ∉ ms.map Prod.fst) (v : Json) : setMember ms k v = ms ++ [(k, v)] := if_neg h

theorem scanMembers_dumpMembers {members ms : List (CodePoints × Json)} (hne : members ≠ [])
    (hkeys : ∀ m ∈ members, ∀ c ∈ m.1, IsScalar c)
    (hnodup : ((ms ++ members).map Prod.fst).Nodup)
    (hplain : ∀ m ∈ members, Plain depth m.2) (hread : ∀ m ∈ members, ReadsBack depth m.2)
    (hfuel : 2 * (dumpMembers members).length + 2 ≤ fuel) :
    scanMembers fuel depth ms (dumpMembers members ++ '\x7d' :: rest) =
      .ok (ms ++ members, rest) := by
  induction members generalizing fuel ms with
  | nil => exact absurd rfl hne
  | cons m members ih =>
    obtain ⟨k, v⟩ := m
    obtain ⟨fuel, rfl⟩ := Nat.exists_eq_add_of_le' (Nat.le_of_add_left_le hfuel)
    have hfresh : k ∉ ms.map Prod.fst := by
      rw [List.map_append, List.nodup_append] at hnodup
      exact fun hk => hnodup.2.2 k hk k (by simp) rfl
    obtain ⟨c, cs, hc, hblank, -⟩ := dumps_head (hplain (k, v) List.mem_cons_self)
    have hskip : ∀ tail, skipBlanks (' ' :: (dumps v ++ tail)) = dumps v ++ tail := by
      intro tail
      rw [hc, List.cons_append]
      exact skipBlanks_cons hblank _
    have hkey := hkeys (k, v) List.mem_cons_self
    have hv : ReadsBack depth v := hread (k, v) List.mem_cons_self
    cases members with
    | nil =>
      rw [dumpMembers, dumpString] at hfuel ⊢
      simp only [List.length_append, List.length_cons] at hfuel
      simp only [List.cons_append, List.append_assoc, List.nil_append]
      rw [scanMembers, scanString_flatMap hkey]
      dsimp only
      rw [skipBlanks_cons rfl]
      simp only
      rw [hskip, hv (by omega) (closes_cons (by simp) _)]
      dsimp only
      rw [skipBlanks_cons rfl]
      simp only
      rw [setMember_of_not_mem hfresh]
    | cons m members =>
      have hdump : dumpMembers ((k, v) :: m :: members) = dumpString k ++ ':' :: ' ' ::
          (dumps v ++ ',' :: ' ' :: dumpMembers (m :: members)) := by
        rw [dumpMembers]
        rintro ⟨⟩
      have hlength := congrArg List.length hdump
      simp only [List.length_append, List.length_cons] at hlength
      have hquote : ∃ ds, dumpMembers (m :: members) = '"' :: ds := by
        obtain ⟨k', v'⟩ := m
        cases members with
        | nil => exact ⟨_, by rw [dumpMembers, dumpString]; rfl⟩
        | cons m' members => exact ⟨_, by rw [dumpMembers, dumpString]; rfl; rintro ⟨⟩⟩
      have hskip' : skipBlanks (' ' :: (dumpMembers (m :: members) ++ '\x7d' :: rest)) =
          dumpMembers (m :: members) ++ '\x7d' :: rest := by
        obtain ⟨ds, hds⟩ := hquote
        rw [hds, List.cons_append]
        rfl
      rw [hdump, dumpString]
      simp only [List.cons_append, List.append_assoc, List.nil_append]
      rw [scanMembers, scanString_flatMap hkey]
      dsimp only
      rw [skipBlanks_cons rfl]
      simp only
      rw [hskip, hv (by omega) (closes_cons (by simp) _)]
      dsimp only
      rw [skipBlanks_cons rfl]
      simp only
      rw [hskip', setMember_of_not_mem hfresh, ih (by simp)
        (fun q hq => hkeys q (List.mem_cons_of_mem _ hq)) (by simpa using hnodup)
        (fun q hq => hplain q (List.mem_cons_of_mem _ hq))
        (fun q hq => hread q (List.mem_cons_of_mem _ hq)) (by omega)]
      rw [List.append_assoc]
      rfl

/-- A plain value is read back. -/
theorem readsBack_of_plain (h : Plain depth v) : ReadsBack depth v := by
  induction h with
  | null =>
    intro fuel rest hfuel _
    obtain ⟨fuel, rfl⟩ := Nat.exists_eq_add_of_le' (Nat.le_of_add_left_le hfuel)
    rfl
  | bool b =>
    intro fuel rest hfuel _
    obtain ⟨fuel, rfl⟩ := Nat.exists_eq_add_of_le' (Nat.le_of_add_left_le hfuel)
    cases b <;> rfl
  | int i hi =>
    intro fuel rest hfuel hrest
    obtain ⟨fuel, rfl⟩ := Nat.exists_eq_add_of_le' (Nat.le_of_add_left_le hfuel)
    rw [dumps, scanOnce_number (numberHead_dumpInt i rest), scanNumber_dumpInt hi hrest]
  | str s hs =>
    intro fuel rest hfuel _
    obtain ⟨fuel, rfl⟩ := Nat.exists_eq_add_of_le' (Nat.le_of_add_left_le hfuel)
    rw [dumps, dumpString]
    simp only [List.cons_append, List.append_assoc, List.nil_append]
    rw [scanOnce, scanString_flatMap hs]
  | @arr depth items hplain ih =>
    intro fuel rest hfuel _
    rw [dumps] at hfuel ⊢
    simp only [List.length_cons, List.length_append, List.length_nil] at hfuel
    obtain ⟨fuel, rfl⟩ := Nat.exists_eq_add_of_le' (Nat.le_of_add_left_le hfuel)
    cases items with
    | nil => rfl
    | cons x xs =>
      have hitems : scanItems fuel depth (dumpItems (x :: xs) ++ ']' :: rest) =
          .ok (x :: xs, rest) :=
        scanItems_dumpItems (List.cons_ne_nil x xs) hplain ih (by omega)
      obtain ⟨c, cs, hc, hblank, hbracket, -⟩ := dumps_head (hplain x List.mem_cons_self)
      obtain ⟨ds, hds⟩ : ∃ ds, dumpItems (x :: xs) = c :: ds := by
        cases xs with
        | nil => exact ⟨cs, by rw [dumpItems, hc]⟩
        | cons y ys => exact ⟨_, by rw [dumpItems, hc, List.cons_append]; rintro ⟨⟩⟩
      simp only [List.cons_append, List.append_assoc, List.nil_append]
      rw [hds, List.cons_append] at hitems ⊢
      rw [scanOnce, skipBlanks_cons hblank]
      split
      · rename_i he
        cases he
        exact absurd rfl hbracket
      · rw [hitems]
  | @obj depth members hkeys hnodup hplain ih =>
    intro fuel rest hfuel _
    rw [dumps] at hfuel ⊢
    simp only [List.length_cons, List.length_append, List.length_nil] at hfuel
    obtain ⟨fuel, rfl⟩ := Nat.exists_eq_add_of_le' (Nat.le_of_add_left_le hfuel)
    cases members with
    | nil => rfl
    | cons m members =>
      have hmembers : scanMembers fuel depth [] (dumpMembers (m :: members) ++ '\x7d' :: rest) =
          .ok ([] ++ m :: members, rest) :=
        scanMembers_dumpMembers (List.cons_ne_nil m members) hkeys hnodup hplain ih (by omega)
      obtain ⟨k, v⟩ := m
      obtain ⟨ds, hds⟩ : ∃ ds, dumpMembers ((k, v) :: members) = '"' :: ds := by
        cases members with
        | nil => exact ⟨_, by rw [dumpMembers, dumpString]; rfl⟩
        | cons m' members => exact ⟨_, by rw [dumpMembers, dumpString]; rfl; rintro ⟨⟩⟩
      simp only [List.cons_append, List.append_assoc, List.nil_append]
      rw [hds, List.cons_append] at hmembers ⊢
      rw [scanOnce, skipBlanks_cons rfl]
      split
      · rename_i he
        cases he
      · rw [hmembers]
        rfl

/-- `loads` of what `dumps` writes. -/
theorem loads_dumps (h : Plain depth v) : loads depth (dumps v) = .ok v := by
  obtain ⟨c, cs, hc, hblank, -, -, hmark⟩ := dumps_head h
  have hend : Closes [] := by rintro c ⟨⟩
  have hread := readsBack_of_plain h (Nat.le_refl (2 * (dumps v).length + 1)) hend
  rw [List.append_nil] at hread
  rw [loads, if_neg (by simpa [hc] using hmark), hc, skipBlanks_cons hblank, ← hc, hread]
  rfl

end Values

end Json

end Foundation
