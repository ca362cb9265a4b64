import Mathlib.Data.List.DropRight

/-! Header fields that carry parameters: a token, then parameters behind semicolons, each a
token or a quoted string in which a backslash quotes the next character. A field that is
written out is read back, whatever its quoted strings hold but control characters. -/

namespace Foundation.Header

/-! ### Grammar -/

/-- A character of a token. -/
def isTokenChar (c : Char) : Bool :=
  c.isAlphanum ∨ c ∈ ['!', '#', '$', '%', '&', '\'', '*', '+', '-', '.', '^', '_', '\x60', '|', '~']

/-- A character that a quoted string may hold. -/
def isQuotable (c : Char) : Bool :=
  c = '\t' ∨ 0x20 ≤ c.toNat ∧ c.toNat ≠ 0x7f

inductive ParamValue where
  | token (s : String)
  | quoted (s : String)
  deriving DecidableEq

structure Param where
  name : String
  value : ParamValue
  deriving DecidableEq

structure Field where
  kind : String
  params : List Param
  deriving DecidableEq

/-! ### Reading -/

/-- The token at the front; there has to be one. -/
def readToken (cs : List Char) : Option (List Char × List Char) :=
  if cs.takeWhile isTokenChar = [] then none
  else some (cs.takeWhile isTokenChar, cs.dropWhile isTokenChar)

/-- The rest of a quoted string, behind its opening quote. -/
def readQuoted : List Char → Option (List Char × List Char)
  | [] => none
  | c :: cs =>
    if c = '"' then some ([], cs)
    else if c = '\\' then
      match cs with
      | [] => none
      | d :: ds =>
        if isQuotable d then (readQuoted ds).map fun r => (d :: r.1, r.2) else none
    else if isQuotable c then (readQuoted cs).map fun r => (c :: r.1, r.2)
    else none

def readValue (cs : List Char) : Option (ParamValue × List Char) :=
  if cs.head? = some '"' then (readQuoted cs.tail).map fun r => (.quoted (String.ofList r.1), r.2)
  else (readToken cs).map fun r => (.token (String.ofList r.1), r.2)

def skipBlanks (cs : List Char) : List Char := cs.dropWhile fun c => c = ' ' ∨ c = '\t'

/-- One parameter behind its semicolon. -/
def readParam (cs : List Char) : Option (Param × List Char) :=
  (readToken (skipBlanks cs)).bind fun name =>
    if name.2.head? = some '=' then
      (readValue name.2.tail).map fun value => (⟨String.ofList name.1, value.1⟩, value.2)
    else none

/-- At most so many parameters, up to the end. -/
def readParams : ℕ → List Char → Option (List Param)
  | 0, cs => if skipBlanks cs = [] then some [] else none
  | limit + 1, cs =>
    match skipBlanks cs with
    | [] => some []
    | c :: cs =>
      if c = ';' then
        (readParam cs).bind fun param => (readParams limit param.2).map (param.1 :: ·)
      else none

/-- A whole field; every parameter takes a character. -/
def read (s : String) : Option Field :=
  (readToken s.toList).bind fun kind => (readParams kind.2.length kind.2).map fun params =>
    ⟨String.ofList kind.1, params⟩

/-! ### Writing -/

def escape (c : Char) : List Char := if c = '"' ∨ c = '\\' then ['\\', c] else [c]

def ParamValue.write : ParamValue → List Char
  | .token s => s.toList
  | .quoted s => '"' :: (s.toList.flatMap escape ++ ['"'])

def Param.write (p : Param) : List Char := p.name.toList ++ '=' :: p.value.write

def writeParams (ps : List Param) : List Char := ps.flatMap fun p => ';' :: ' ' :: p.write

def Field.write (f : Field) : String := String.ofList (f.kind.toList ++ writeParams f.params)

/-! ### Round trip -/

def IsToken (s : List Char) : Prop := s ≠ [] ∧ ∀ c ∈ s, isTokenChar c = true

def ParamValue.WellFormed : ParamValue → Prop
  | .token s => IsToken s.toList
  | .quoted s => ∀ c ∈ s.toList, isQuotable c = true

structure Field.WellFormed (f : Field) : Prop where
  kind : IsToken f.kind.toList
  names : ∀ p ∈ f.params, IsToken p.name.toList
  values : ∀ p ∈ f.params, p.value.WellFormed

/-- What comes after a token does not go on with it. -/
def EndsToken (cs : List Char) : Prop := ∀ c, cs.head? = some c → isTokenChar c = false

theorem readToken_append {s cs : List Char} (hs : IsToken s) (hcs : EndsToken cs) :
    readToken (s ++ cs) = some (s, cs) := by
  have htake : cs.takeWhile isTokenChar = [] := by
    cases cs with
    | nil => rfl
    | cons c cs => rw [List.takeWhile_cons, hcs c rfl, if_neg Bool.false_ne_true]
  have hdrop : cs.dropWhile isTokenChar = cs := by
    cases cs with
    | nil => rfl
    | cons c cs => rw [List.dropWhile_cons, hcs c rfl, if_neg Bool.false_ne_true]
  rw [readToken, List.takeWhile_append_of_pos hs.2, List.dropWhile_append_of_pos hs.2, htake, hdrop,
    List.append_nil, if_neg hs.1]

theorem readQuoted_end (cs : List Char) : readQuoted ('"' :: cs) = some ([], cs) := by
  rw [readQuoted.eq_def]
  exact if_pos rfl

theorem readQuoted_escape {c : Char} (hc : isQuotable c = true) (cs : List Char) :
    readQuoted (escape c ++ cs) = (readQuoted cs).map fun r => (c :: r.1, r.2) := by
  rw [escape]
  split_ifs with hescaped
  · rw [List.cons_append, List.singleton_append, readQuoted.eq_def]
    dsimp only
    rw [if_neg (by decide), if_pos rfl, if_pos hc]
  · rw [not_or] at hescaped
    rw [List.singleton_append, readQuoted.eq_def]
    dsimp only
    rw [if_neg hescaped.1, if_neg hescaped.2, if_pos hc]

theorem readQuoted_append {s : List Char} (hs : ∀ c ∈ s, isQuotable c = true) (cs : List Char) :
    readQuoted (s.flatMap escape ++ '"' :: cs) = some (s, cs) := by
  induction s with
  | nil => exact readQuoted_end cs
  | cons c s ih =>
    rw [List.flatMap_cons, List.append_assoc, readQuoted_escape (hs c List.mem_cons_self),
      ih fun d hd => hs d (List.mem_cons_of_mem c hd), Option.map_some]

theorem head?_append_of_isToken {s : List Char} (hs : IsToken s) {c : Char}
    (hc : isTokenChar c = false) (cs : List Char) : (s ++ cs).head? ≠ some c := by
  obtain ⟨d, s, rfl⟩ := List.exists_cons_of_ne_nil hs.1
  rw [List.cons_append, List.head?_cons]
  rintro ⟨⟩
  rw [hs.2 c List.mem_cons_self] at hc
  cases hc

theorem readValue_append {v : ParamValue} (hv : v.WellFormed) {cs : List Char}
    (hcs : EndsToken cs) : readValue (v.write ++ cs) = some (v, cs) := by
  cases v with
  | token s =>
    rw [ParamValue.write, readValue, if_neg (head?_append_of_isToken hv (by decide) cs),
      readToken_append hv hcs, Option.map_some, String.ofList_toList]
  | quoted s =>
    rw [ParamValue.write, List.cons_append, List.append_assoc, List.singleton_append, readValue,
      List.head?_cons, if_pos rfl, List.tail_cons, readQuoted_append hv, Option.map_some,
      String.ofList_toList]

theorem skipBlanks_of_isToken {s : List Char} (hs : IsToken s) (cs : List Char) :
    skipBlanks (s ++ cs) = s ++ cs := by
  rw [skipBlanks, List.dropWhile_eq_self_iff]
  intro hlen hblank
  have hhead : (s ++ cs).head? = some (s ++ cs)[0] := List.head?_eq_getElem?.trans (by simp)
  rcases of_decide_eq_true hblank with hc | hc
  · exact head?_append_of_isToken hs (by decide) cs (hc ▸ hhead)
  · exact head?_append_of_isToken hs (by decide) cs (hc ▸ hhead)

theorem readParam_append {p : Param} (hname : IsToken p.name.toList) (hvalue : p.value.WellFormed)
    {cs : List Char} (hcs : EndsToken cs) :
    readParam (' ' :: p.write ++ cs) = some (p, cs) := by
  have hequals : EndsToken ('=' :: (p.value.write ++ cs)) := by
    rintro c ⟨⟩
    decide
  have hskip : skipBlanks (' ' :: p.write ++ cs) =
      p.name.toList ++ '=' :: (p.value.write ++ cs) := by
    rw [Param.write, List.cons_append, List.append_assoc, List.cons_append]
    exact skipBlanks_of_isToken hname _
  rw [readParam, hskip, readToken_append hname hequals, Option.bind_some, List.head?_cons,
    if_pos rfl, List.tail_cons, readValue_append hvalue hcs, Option.map_some,
    String.ofList_toList]

theorem endsToken_writeParams (ps : List Param) : EndsToken (writeParams ps) := by
  cases ps with
  | nil => rintro c ⟨⟩
  | cons p ps =>
    rintro c ⟨⟩
    decide

theorem readParams_write {ps : List Param} (hnames : ∀ p ∈ ps, IsToken p.name.toList)
    (hvalues : ∀ p ∈ ps, p.value.WellFormed) {limit : ℕ} (hlimit : ps.length ≤ limit) :
    readParams limit (writeParams ps) = some ps := by
  induction ps generalizing limit with
  | nil => cases limit <;> rfl
  | cons p ps ih =>
    obtain ⟨limit, rfl⟩ := Nat.exists_eq_add_one.mpr (Nat.lt_of_lt_of_le (Nat.succ_pos _) hlimit)
    have hparam := readParam_append (hnames p List.mem_cons_self) (hvalues p List.mem_cons_self)
      (endsToken_writeParams ps)
    have hrest := ih (fun q hq => hnames q (List.mem_cons_of_mem p hq))
      (fun q hq => hvalues q (List.mem_cons_of_mem p hq)) (Nat.le_of_succ_le_succ hlimit)
    have hskip : skipBlanks (writeParams (p :: ps)) = ';' :: (' ' :: p.write ++ writeParams ps) :=
      rfl
    rw [readParams, hskip]
    dsimp only
    rw [if_pos rfl, hparam, Option.bind_some, hrest, Option.map_some]

theorem length_le_length_writeParams (ps : List Param) :
    ps.length ≤ (writeParams ps).length := by
  induction ps with
  | nil => exact Nat.le_refl _
  | cons p ps ih =>
    rw [writeParams, List.flatMap_cons, List.length_append, ← writeParams, List.length_cons,
      List.length_cons, List.length_cons]
    omega

/-- What is written is read back. -/
theorem read_write {f : Field} (hf : f.WellFormed) : read f.write = some f := by
  rw [read, Field.write, String.toList_ofList,
    readToken_append hf.kind (endsToken_writeParams f.params), Option.bind_some]
  dsimp only
  rw [readParams_write hf.names hf.values (length_le_length_writeParams f.params),
    Option.map_some, String.ofList_toList]

end Foundation.Header
