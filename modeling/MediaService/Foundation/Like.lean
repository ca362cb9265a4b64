import Mathlib.Data.List.Infix

/-! `LIKE` patterns. A pattern is a list of pieces: a character stands for itself, one
wildcard for a single character and the other for any text. A character put behind an
escape has no other meaning, so an escaped text matches itself alone. -/

namespace Foundation

/-- A piece of a pattern. -/
inductive Piece where
  | char (c : Char)
  | one
  | many
  deriving DecidableEq

namespace Piece

variable {p q : List Char} {pieces : List Piece} {text : List Char} {c e : Char}

/-- What a character stands for where no escape is before it. -/
def ofChar (c : Char) : Piece := if c = '%' then many else if c = '_' then one else char c

/-- The pieces a pattern is read as, from behind an escape or not. -/
def parseFrom (escape : Option Char) : Bool → List Char → List Piece
  | _, [] => []
  | true, c :: pattern => char c :: parseFrom escape false pattern
  | false, c :: pattern =>
    if escape = some c then parseFrom escape true pattern
    else ofChar c :: parseFrom escape false pattern

def parse (escape : Option Char) (pattern : List Char) : List Piece :=
  parseFrom escape false pattern

/-- The pieces match a text from its first character to its last. -/
def accepts : List Piece → List Char → Bool
  | [], text => text.isEmpty
  | many :: pieces, text => text.tails.any (accepts pieces)
  | one :: pieces, text =>
    match text with
    | [] => false
    | _ :: text => accepts pieces text
  | char c :: pieces, text =>
    match text with
    | [] => false
    | d :: text => c = d && accepts pieces text

/-- The characters with a meaning in a pattern, each behind the escape. -/
def escaped (e : Char) (text : List Char) : List Char :=
  text.flatMap fun c => if c = e ∨ c = '%' ∨ c = '_' then [e, c] else [c]

/-! ### Matching -/

@[simp]
theorem accepts_nil : accepts [] text = true ↔ text = [] := by
  simp [accepts]

@[simp]
theorem accepts_one : accepts (one :: pieces) text = true ↔
    ∃ d rest, text = d :: rest ∧ accepts pieces rest = true := by
  cases text <;> simp [accepts]

@[simp]
theorem accepts_char : accepts (char c :: pieces) text = true ↔
    ∃ rest, text = c :: rest ∧ accepts pieces rest = true := by
  cases text with
  | nil => simp [accepts]
  | cons d text =>
    simp only [accepts, Bool.and_eq_true, decide_eq_true_eq, List.cons.injEq]
    constructor
    · rintro ⟨rfl, h⟩
      exact ⟨text, ⟨rfl, rfl⟩, h⟩
    · rintro ⟨rest, ⟨rfl, rfl⟩, h⟩
      exact ⟨rfl, h⟩

@[simp]
theorem accepts_many : accepts (many :: pieces) text = true ↔
    ∃ rest, rest <:+ text ∧ accepts pieces rest = true := by
  simp [accepts, List.any_eq_true]

theorem accepts_chars_append : accepts (p.map char ++ pieces) text = true ↔
    ∃ rest, text = p ++ rest ∧ accepts pieces rest = true := by
  induction p generalizing text with
  | nil => simp
  | cons c p ih =>
    rw [List.map_cons, List.cons_append, accepts_char]
    constructor
    · rintro ⟨tail, rfl, htail⟩
      obtain ⟨rest, rfl, h⟩ := ih.mp htail
      exact ⟨rest, rfl, h⟩
    · rintro ⟨rest, rfl, h⟩
      exact ⟨p ++ rest, rfl, ih.mpr ⟨rest, rfl, h⟩⟩

/-- A literal text and then anything: the texts with this prefix. -/
theorem accepts_startsWith : accepts (p.map char ++ [many]) text = true ↔ p <+: text := by
  rw [accepts_chars_append]
  constructor
  · rintro ⟨rest, rfl, -⟩
    exact List.prefix_append p rest
  · rintro ⟨rest, rfl⟩
    exact ⟨rest, rfl, accepts_many.mpr ⟨[], List.nil_suffix, rfl⟩⟩

/-- Anything around a literal text: the texts that contain it. -/
theorem accepts_contains :
    accepts (many :: (q.map char ++ [many])) text = true ↔ q <:+: text := by
  rw [accepts_many]
  constructor
  · rintro ⟨rest, hrest, h⟩
    exact (accepts_startsWith.mp h).isInfix.trans hrest.isInfix
  · rintro ⟨before, after, rfl⟩
    refine ⟨q ++ after, ?_, accepts_startsWith.mpr (List.prefix_append q after)⟩
    rw [List.append_assoc]
    exact List.suffix_append before (q ++ after)

/-! ### Reading patterns -/

theorem parse_cons (c : Char) (p : List Char) : parse none (c :: p) = ofChar c :: parse none p := by
  rw [parse, parseFrom, if_neg nofun, parse]

theorem parse_append (p q : List Char) : parse none (p ++ q) = parse none p ++ parse none q := by
  induction p with
  | nil => rfl
  | cons c p ih => rw [List.cons_append, parse_cons, parse_cons, ih, List.cons_append]

/-- What is read from an escaped text is the text. -/
theorem parse_escaped_append (e : Char) (text rest : List Char) :
    parse (some e) (escaped e text ++ rest) = text.map char ++ parse (some e) rest := by
  induction text with
  | nil => rfl
  | cons c text ih =>
    have hcons : escaped e (c :: text) =
        (if c = e ∨ c = '%' ∨ c = '_' then [e, c] else [c]) ++ escaped e text :=
      List.flatMap_cons
    rw [hcons, List.append_assoc, List.map_cons, List.cons_append, ← ih]
    split_ifs with hspecial
    · rw [List.cons_append, parse, parseFrom, if_pos rfl]
      rfl
    · simp only [not_or] at hspecial
      obtain ⟨he, hmany, hone⟩ := hspecial
      have hne : some e ≠ some c := fun h => he (Option.some.inj h).symm
      rw [List.cons_append, parse, parseFrom, if_neg hne, ofChar, if_neg hmany, if_neg hone]
      rfl

theorem parse_literal (h : '%' ∉ p ∧ '_' ∉ p) : parse none p = p.map char := by
  induction p with
  | nil => rfl
  | cons c p ih =>
    simp only [List.mem_cons, not_or] at h
    rw [parse_cons, ofChar, if_neg (Ne.symm h.1.1), if_neg (Ne.symm h.2.1), ih ⟨h.1.2, h.2.2⟩,
      List.map_cons]

/-- Either wildcard takes any one character. -/
theorem accepts_ofChar {d : Char} (hd : ofChar c ≠ char c ∨ d = c)
    (h : accepts pieces text = true) : accepts (ofChar c :: pieces) (d :: text) = true := by
  unfold ofChar at hd ⊢
  split_ifs at hd ⊢
  · exact accepts_many.mpr ⟨text, List.suffix_cons d text, h⟩
  · exact accepts_one.mpr ⟨d, text, rfl, h⟩
  · obtain rfl : d = c := hd.resolve_left (not_not_intro rfl)
    exact accepts_char.mpr ⟨text, rfl, h⟩

/-- An unescaped pattern matches what it spells, wildcards and all. -/
theorem accepts_parse_prefix {p : List Char} (h : p <+: text) :
    accepts (parse none p ++ [many]) text = true := by
  induction p generalizing text with
  | nil => exact accepts_many.mpr ⟨[], List.nil_suffix, rfl⟩
  | cons c p ih =>
    obtain ⟨rest, rfl⟩ := h
    rw [parse_cons]
    exact accepts_ofChar (.inr rfl) (ih (List.prefix_append p rest))

/-- The text with each wildcard replaced by a character that is none. -/
def masked (p : List Char) : List Char := p.map fun c => if c = '%' ∨ c = '_' then 'x' else c

theorem accepts_masked (p : List Char) : accepts (parse none p ++ [many]) (masked p) = true := by
  induction p with
  | nil => exact accepts_many.mpr ⟨[], List.nil_suffix, rfl⟩
  | cons c p ih =>
    rw [parse_cons]
    refine accepts_ofChar ?_ ih
    by_cases hc : c = '%' ∨ c = '_'
    · rcases hc with rfl | rfl
      · exact .inl (by decide)
      · exact .inl (by decide)
    · exact .inr (if_neg hc)

/-- An unescaped pattern stands for its own prefix exactly when it has no wildcard. -/
theorem accepts_parse_prefix_iff (p : List Char) :
    (∀ text, accepts (parse none p ++ [many]) text = true ↔ p <+: text) ↔
      '%' ∉ p ∧ '_' ∉ p := by
  constructor
  · intro h
    have hstem : p <+: masked p := (h (masked p)).mp (accepts_masked p)
    have heq : masked p = p := (hstem.eq_of_length (List.length_map _).symm).symm
    have hfixed : ∀ c ∈ p, (if c = '%' ∨ c = '_' then 'x' else c) = c :=
      List.map_inj_left.mp (heq.trans (List.map_id p).symm)
    exact ⟨fun hc => absurd (hfixed '%' hc) (by decide),
      fun hc => absurd (hfixed '_' hc) (by decide)⟩
  · intro h text
    rw [parse_literal h, accepts_startsWith]

end Piece

end Foundation
