import Mathlib.Data.BitVec
import Mathlib.Data.List.Basic

/-! Internet addresses: their text, and the special-purpose ranges. An address is
a 32- or a 128-bit value, a range the leading bits its members share. The
predicates are the ones the registries name; an IPv4 address mapped into IPv6
answers them as the IPv4 address does. -/

namespace Foundation

/-! ### Ranges -/

/-- The addresses that share the `length` leading bits of `base`. -/
structure Network (w : ℕ) where
  base : BitVec w
  length : ℕ

def Network.contains {w : ℕ} (n : Network w) (a : BitVec w) : Bool :=
  a >>> (w - n.length) = n.base >>> (w - n.length)

section Disjoint

variable {w : ℕ} {n m : Network w} {a : BitVec w}

/-- Of two ranges with a common address, the shorter prefix has all of the other's. -/
theorem Network.contains_base (hle : n.length ≤ m.length) (hm : m.length ≤ w)
    (hn : n.contains a = true) (ha : m.contains a = true) : n.contains m.base = true := by
  have hsum : w - n.length = w - m.length + (m.length - n.length) := by omega
  have hn := of_decide_eq_true hn
  have ha := of_decide_eq_true ha
  refine decide_eq_true ?_
  rw [← hn, hsum, BitVec.shiftRight_add, BitVec.shiftRight_add, ha]

/-- The prefixes differ where both have bits. -/
def Network.disjoint (n m : Network w) : Bool :=
  (n.length ≤ m.length ∧ m.length ≤ w ∧ n.contains m.base = false) ∨
    (m.length ≤ n.length ∧ n.length ≤ w ∧ m.contains n.base = false)

theorem Network.not_contains_of_disjoint (h : n.disjoint m = true) (hn : n.contains a = true) :
    m.contains a = false := by
  by_contra hm
  rw [Bool.not_eq_false] at hm
  rcases of_decide_eq_true h with ⟨hle, hw, hbase⟩ | ⟨hle, hw, hbase⟩
  · rw [Network.contains_base hle hw hn hm] at hbase
    cases hbase
  · rw [Network.contains_base hle hw hm hn] at hbase
    cases hbase

theorem Network.any_eq_false {ns : List (Network w)} (h : (ns.all fun m => n.disjoint m) = true)
    (hn : n.contains a = true) : (ns.any fun m => m.contains a) = false := by
  rw [List.any_eq_false]
  intro m hm
  rw [Network.not_contains_of_disjoint (List.all_eq_true.mp h m hm) hn]
  decide

theorem Network.all_eq_true {ns : List (Network w)} (h : (ns.all fun m => n.disjoint m) = true)
    (hn : n.contains a = true) : (ns.all fun m => !m.contains a) = true := by
  rw [List.all_eq_true]
  intro m hm
  rw [Network.not_contains_of_disjoint (List.all_eq_true.mp h m hm) hn]
  rfl

end Disjoint

/-- A range of IPv4 addresses, `a.b.c.d/length`. -/
def network4 (a b c d : BitVec 8) (length : ℕ) : Network 32 := ⟨a ++ b ++ c ++ d, length⟩

/-- A range of IPv6 addresses, `a:b:c:d::/length`. -/
def network6 (a b c d : BitVec 16) (length : ℕ) : Network 128 := ⟨a ++ b ++ c ++ d ++ 0#64, length⟩

inductive IpAddress where
  | v4 (value : BitVec 32)
  | v6 (value : BitVec 128) (scopeId : Option String)
  deriving DecidableEq

namespace IpAddress

def reserved6 : List (Network 128) :=
  [network6 0 0 0 0 8, network6 0x100 0 0 0 8, network6 0x200 0 0 0 7, network6 0x400 0 0 0 6,
    network6 0x800 0 0 0 5, network6 0x1000 0 0 0 4, network6 0x4000 0 0 0 3,
    network6 0x6000 0 0 0 3, network6 0x8000 0 0 0 3, network6 0xa000 0 0 0 3,
    network6 0xc000 0 0 0 3, network6 0xe000 0 0 0 4, network6 0xf000 0 0 0 5,
    network6 0xf800 0 0 0 6, network6 0xfe00 0 0 0 9]

def private4 : List (Network 32) :=
  [network4 0 0 0 0 8, network4 10 0 0 0 8, network4 127 0 0 0 8, network4 169 254 0 0 16,
    network4 172 16 0 0 12, network4 192 0 0 0 24, network4 192 0 0 170 31, network4 192 0 2 0 24,
    network4 192 168 0 0 16, network4 198 18 0 0 15, network4 198 51 100 0 24,
    network4 203 0 113 0 24, network4 240 0 0 0 4, network4 255 255 255 255 32]

def privateExceptions4 : List (Network 32) := [network4 192 0 0 9 32, network4 192 0 0 10 32]

def mapped : Network 128 := ⟨0xffff00000000#128, 96⟩

def private6 : List (Network 128) :=
  [⟨1#128, 128⟩, ⟨0#128, 128⟩, mapped, network6 0x64 0xff9b 1 0 48, network6 0x100 0 0 0 64,
    network6 0x2001 0 0 0 23, network6 0x2001 0xdb8 0 0 32, network6 0x2002 0 0 0 16,
    network6 0x3fff 0 0 0 20, network6 0xfc00 0 0 0 7, network6 0xfe80 0 0 0 10]

def privateExceptions6 : List (Network 128) :=
  [⟨0x20010001000000000000000000000001#128, 128⟩, ⟨0x20010001000000000000000000000002#128, 128⟩,
    network6 0x2001 3 0 0 32, network6 0x2001 4 0x112 0 48, network6 0x2001 0x20 0 0 28,
    network6 0x2001 0x30 0 0 28]

/-- `ipv4_mapped`: the IPv4 address an IPv6 address carries. -/
def ipv4Mapped (a : BitVec 128) : Option (BitVec 32) :=
  if mapped.contains a then some (a.truncate 32) else none

/-- A predicate of both families, which a mapped address answers as IPv4. -/
def classify (p4 : BitVec 32 → Bool) (p6 : BitVec 128 → Bool) : IpAddress → Bool
  | v4 a => p4 a
  | v6 a _ =>
    match ipv4Mapped a with
    | some b => p4 b
    | none => p6 a

def isLoopback : IpAddress → Bool :=
  classify (network4 127 0 0 0 8).contains fun a => a = 1

def isLinkLocal : IpAddress → Bool :=
  classify (network4 169 254 0 0 16).contains (network6 0xfe80 0 0 0 10).contains

def isMulticast : IpAddress → Bool :=
  classify (network4 224 0 0 0 4).contains (network6 0xff00 0 0 0 8).contains

def isReserved : IpAddress → Bool :=
  classify (network4 240 0 0 0 4).contains fun a => reserved6.any fun n => n.contains a

def isUnspecified : IpAddress → Bool :=
  classify (fun a => a = 0) fun a => a = 0

def isPrivate : IpAddress → Bool :=
  classify
    (fun a => (private4.any fun n => n.contains a) ∧
      (privateExceptions4.all fun n => !n.contains a))
    (fun a => (private6.any fun n => n.contains a) ∧
      (privateExceptions6.all fun n => !n.contains a))

/-! ### Ranges of private networks -/

/-- The ranges of RFC 1918. -/
def rfc1918 : List (Network 32) :=
  [network4 10 0 0 0 8, network4 172 16 0 0 12, network4 192 168 0 0 16]

/-- The shared address space of carrier-grade NAT, 100.64.0.0/10. -/
def sharedSpace : Network 32 := network4 100 64 0 0 10

/-- The unique local addresses, fc00::/7. -/
def uniqueLocal : Network 128 := network6 0xfc00 0 0 0 7

def isRfc1918 : IpAddress → Bool :=
  classify (fun a => rfc1918.any fun n => n.contains a) fun _ => false

def isSharedSpace : IpAddress → Bool := classify sharedSpace.contains fun _ => false

def isUniqueLocal : IpAddress → Bool := classify (fun _ => false) uniqueLocal.contains

/-- What both families say of an address, a mapped one as IPv4. -/
theorem classify_cases (ip : IpAddress) :
    (∃ a, ∀ p4 p6, classify p4 p6 ip = p4 a) ∨ ∃ a, ∀ p4 p6, classify p4 p6 ip = p6 a := by
  cases ip with
  | v4 a => exact .inl ⟨a, fun _ _ => rfl⟩
  | v6 a scopeId =>
    cases hm : ipv4Mapped a with
    | some b => exact .inl ⟨b, fun _ _ => by simp only [classify, hm]⟩
    | none => exact .inr ⟨a, fun _ _ => by simp only [classify, hm]⟩

theorem isPrivate_of_isRfc1918 {ip : IpAddress} (h : ip.isRfc1918 = true) :
    ip.isPrivate = true := by
  unfold isRfc1918 at h
  unfold isPrivate
  rcases classify_cases ip with ⟨a, ha⟩ | ⟨a, ha⟩
  · rw [ha] at h ⊢
    obtain ⟨n, hn, hcontains⟩ := List.any_eq_true.mp h
    have hsub : n ∈ private4 := by
      simp only [rfc1918, List.mem_cons, List.not_mem_nil, or_false] at hn
      rcases hn with rfl | rfl | rfl <;> simp [private4]
    have hexcept : (rfc1918.all fun n => privateExceptions4.all fun m => n.disjoint m) = true := by
      decide
    exact decide_eq_true ⟨List.any_eq_true.mpr ⟨n, hsub, hcontains⟩,
      Network.all_eq_true (List.all_eq_true.mp hexcept n hn) hcontains⟩
  · rw [ha] at h
    cases h

theorem isPrivate_of_isUniqueLocal {ip : IpAddress} (h : ip.isUniqueLocal = true) :
    ip.isPrivate = true := by
  unfold isUniqueLocal at h
  unfold isPrivate
  rcases classify_cases ip with ⟨a, ha⟩ | ⟨a, ha⟩
  · rw [ha] at h
    cases h
  · rw [ha] at h ⊢
    have hexcept : (privateExceptions6.all fun m => uniqueLocal.disjoint m) = true := by decide
    exact decide_eq_true ⟨List.any_eq_true.mpr ⟨uniqueLocal, by simp [private6, uniqueLocal], h⟩,
      Network.all_eq_true hexcept h⟩

/-- None of the other predicates knows the shared address space. -/
theorem isSharedSpace_free {ip : IpAddress} (h : ip.isSharedSpace = true) :
    ip.isLoopback = false ∧ ip.isLinkLocal = false ∧ ip.isMulticast = false ∧
      ip.isReserved = false ∧ ip.isUnspecified = false ∧ ip.isPrivate = false := by
  unfold isSharedSpace at h
  unfold isLoopback isLinkLocal isMulticast isReserved isUnspecified isPrivate
  rcases classify_cases ip with ⟨a, ha⟩ | ⟨a, ha⟩
  · rw [ha] at h
    simp only [ha]
    have hprivate : (private4.all fun m => sharedSpace.disjoint m) = true := by decide
    refine ⟨Network.not_contains_of_disjoint (by decide) h,
      Network.not_contains_of_disjoint (by decide) h,
      Network.not_contains_of_disjoint (by decide) h,
      Network.not_contains_of_disjoint (by decide) h, ?_, ?_⟩
    · refine decide_eq_false ?_
      rintro rfl
      exact absurd h (by decide)
    · rw [Network.any_eq_false hprivate h]
      rfl
  · rw [ha] at h
    cases h

/-! ### Text -/

/-- A decimal octet: one to three digits, no leading zero, at most 255. -/
def octet (s : List Char) : Option ℕ :=
  if s = [] ∨ 3 < s.length ∨ ¬ s.all Char.isDigit ∨ (1 < s.length ∧ s.head? = some '0') then none
  else
    let n := s.foldl (fun n c => 10 * n + (c.toNat - '0'.toNat)) 0
    if 255 < n then none else some n

/-- Four octets with dots between them. -/
def parse4 (s : List Char) : Option (BitVec 32) :=
  match (s.splitOn '.').map octet with
  | [some a, some b, some c, some d] =>
    some (BitVec.ofNat 32 (((a * 256 + b) * 256 + c) * 256 + d))
  | _ => none

def hexDigit (c : Char) : Option ℕ :=
  if '0' ≤ c ∧ c ≤ '9' then some (c.toNat - '0'.toNat)
  else if 'a' ≤ c ∧ c ≤ 'f' then some (c.toNat - 'a'.toNat + 10)
  else if 'A' ≤ c ∧ c ≤ 'F' then some (c.toNat - 'A'.toNat + 10)
  else none

/-- One to four hexadecimal digits. -/
def hextet (s : List Char) : Option ℕ :=
  if s = [] ∨ 4 < s.length then none
  else s.foldl (fun n c => n.bind fun n => (hexDigit c).map fun d => 16 * n + d) (some 0)

def hextets : List (List Char) → Option (List ℕ)
  | [] => some []
  | s :: ss => (hextet s).bind fun n => (hextets ss).map fun ns => n :: ns

/-- The parts between the colons, a trailing IPv4 address as two of them. -/
def parts6 (s : List Char) : Option (List (List Char)) :=
  let parts := s.splitOn ':'
  if parts.length < 3 then none
  else
    let last := parts.getLastD []
    if '.' ∈ last then
      (parse4 last).map fun a => parts.dropLast ++
        [Nat.toDigits 16 (a.toNat / 65536), Nat.toDigits 16 (a.toNat % 65536)]
    else some parts

/-- The eight hextets; an empty part between two others stands for the missing
ones, and an empty first or last part only stands beside such a part. -/
def expand6 (parts : List (List Char)) : Option (List (List Char)) :=
  let inner := ((List.range parts.length).filter fun i =>
    1 ≤ i ∧ i + 1 < parts.length ∧ parts.getD i [] = [])
  if 9 < parts.length then none
  else
    match inner with
    | [] => if parts.length = 8 then some parts else none
    | [skip] =>
      let hi := parts.take skip
      let lo := parts.drop (skip + 1)
      let hi := if hi.head? = some [] then hi.tail else hi
      let lo := if lo.getLast? = some [] then lo.dropLast else lo
      if (parts.head? = some [] ∧ hi ≠ []) ∨ (parts.getLast? = some [] ∧ lo ≠ []) ∨
          8 ≤ hi.length + lo.length then none
      else some (hi ++ List.replicate (8 - (hi.length + lo.length)) ['0'] ++ lo)
    | _ => none

def parse6 (s : List Char) : Option (BitVec 128) :=
  match (parts6 s).bind fun parts => (expand6 parts).bind hextets with
  | none => none
  | some ns => some (BitVec.ofNat 128 (ns.foldl (fun n d => 65536 * n + d) 0))

/-- `ipaddress.ip_address` of a text, which raises for any other. -/
def ofString (s : String) : Option IpAddress :=
  if '/' ∈ s.toList then none
  else
    match parse4 s.toList with
    | some a => some (v4 a)
    | none =>
      match s.toList.splitOn '%' with
      | [address] => (parse6 address).map fun a => v6 a none
      | [address, scopeId] =>
        if scopeId = [] then none
        else (parse6 address).map fun a => v6 a (some (String.ofList scopeId))
      | _ => none

end IpAddress

end Foundation
