/-
Neoip/Escape.lean

Escaped strings: a byte which is not in a set of plain ones is written `%xx`.

`unescape` replaces the sequences `%xx`, where `xx` are two hexadecimal digits, and
leaves everything else, a `%` which begins no such sequence too.  So it undoes
`escapeNotIn` for every set without `%` (`unescape_escapeNotIn`), whatever comes after
(`unescape_escapeNotIn_append`), and what it does not leave alone becomes shorter
(`length_unescape_lt`).
-/
import Mathlib.Data.List.Basic
import Mathlib.Tactic.Common

namespace Neoip

/-! ### Hexadecimal digits -/

/-- The digit of a number less than 16, in lower case. -/
def hexDigit (n : UInt8) : UInt8 := if n < 10 then 48 + n else 87 + n

/-- `isxdigit`. -/
def isXdigit (c : UInt8) : Bool :=
  (48 ≤ c && c ≤ 57) || (65 ≤ c && c ≤ 70) || (97 ≤ c && c ≤ 102)

/-- What a hexadecimal digit stands for. -/
def xdigitVal (c : UInt8) : UInt8 :=
  if c ≤ 57 then c - 48 else if c ≤ 70 then c - 55 else c - 87

theorem hexDigit_spec (c : UInt8) :
    isXdigit (hexDigit (c / 16)) = true ∧ isXdigit (hexDigit (c % 16)) = true ∧
      xdigitVal (hexDigit (c / 16)) * 16 + xdigitVal (hexDigit (c % 16)) = c := by
  have hall : ∀ n : Fin 256, isXdigit (hexDigit (UInt8.ofFin n / 16)) = true ∧
      isXdigit (hexDigit (UInt8.ofFin n % 16)) = true ∧
        xdigitVal (hexDigit (UInt8.ofFin n / 16)) * 16 + xdigitVal (hexDigit (UInt8.ofFin n % 16))
          = UInt8.ofFin n := by
    decide +kernel
  exact hall c.toFin

/-! ### Escaping -/

/-- `escape_not_in`: the bytes of the set are left as they are. -/
def escapeNotIn (charset : UInt8 → Bool) (str : List UInt8) : List UInt8 :=
  str.flatMap fun c => if charset c then [c] else [37, hexDigit (c / 16), hexDigit (c % 16)]

/-- `unescape`. -/
def unescape : List UInt8 → List UInt8
  | c :: a :: b :: rest =>
    if c = 37 ∧ isXdigit a = true ∧ isXdigit b = true then
      (xdigitVal a * 16 + xdigitVal b) :: unescape rest
    else c :: unescape (a :: b :: rest)
  | c :: rest => c :: unescape rest
  | [] => []

variable {charset : UInt8 → Bool} {str rest : List UInt8} {c a b : UInt8}

@[simp] theorem unescape_nil : unescape [] = [] := rfl

theorem escapeNotIn_cons (charset : UInt8 → Bool) (c : UInt8) (str : List UInt8) :
    escapeNotIn charset (c :: str) =
      (if charset c then [c] else [37, hexDigit (c / 16), hexDigit (c % 16)]) ++
        escapeNotIn charset str := List.flatMap_cons

theorem escapeNotIn_append (charset : UInt8 → Bool) (str rest : List UInt8) :
    escapeNotIn charset (str ++ rest) = escapeNotIn charset str ++ escapeNotIn charset rest :=
  List.flatMap_append

theorem escapeNotIn_eq_nil : escapeNotIn charset str = [] ↔ str = [] := by
  cases str with
  | nil => exact iff_of_true rfl rfl
  | cons c str =>
    refine iff_of_false (fun h => ?_) (List.cons_ne_nil _ _)
    rw [escapeNotIn_cons] at h
    split_ifs at h
    · exact List.cons_ne_nil _ _ h
    · exact List.cons_ne_nil _ _ h

theorem unescape_cons_of_ne (h : c ≠ 37) (rest : List UInt8) :
    unescape (c :: rest) = c :: unescape rest := by
  rcases rest with - | ⟨a, - | ⟨b, rest⟩⟩
  · rfl
  · rfl
  · rw [unescape, if_neg fun hall => h hall.1]

theorem unescape_escaped (ha : isXdigit a = true) (hb : isXdigit b = true) (rest : List UInt8) :
    unescape (37 :: a :: b :: rest) = (xdigitVal a * 16 + xdigitVal b) :: unescape rest := by
  rw [unescape, if_pos ⟨rfl, ha, hb⟩]

/-- A string without escape character is left as it is. -/
theorem unescape_append_of_notMem (h : 37 ∉ str) (rest : List UInt8) :
    unescape (str ++ rest) = str ++ unescape rest := by
  induction str with
  | nil => rfl
  | cons c str ih =>
    have hc : c ≠ 37 := fun heq => h (heq ▸ List.mem_cons_self ..)
    rw [List.cons_append, unescape_cons_of_ne hc, ih fun hmem => h (List.mem_cons_of_mem _ hmem)]
    rfl

theorem unescape_of_notMem (h : 37 ∉ str) : unescape str = str := by
  have heq := unescape_append_of_notMem h []
  rwa [List.append_nil, unescape_nil, List.append_nil] at heq

/-- **What was escaped is read back**, whatever comes after. -/
theorem unescape_escapeNotIn_append (h : charset 37 = false) (str rest : List UInt8) :
    unescape (escapeNotIn charset str ++ rest) = str ++ unescape rest := by
  induction str with
  | nil => rfl
  | cons c str ih =>
    rw [escapeNotIn_cons, List.append_assoc]
    split_ifs with hc
    · have hne : c ≠ 37 := by
        rintro rfl
        exact Bool.false_ne_true (h.symm.trans hc)
      rw [List.cons_append, List.nil_append, unescape_cons_of_ne hne, ih]
      rfl
    · obtain ⟨ha, hb, hval⟩ := hexDigit_spec c
      rw [List.cons_append, List.cons_append, List.cons_append, List.nil_append,
        unescape_escaped ha hb, ih, hval]
      rfl

theorem unescape_escapeNotIn (h : charset 37 = false) (str : List UInt8) :
    unescape (escapeNotIn charset str) = str := by
  have heq := unescape_escapeNotIn_append h str []
  rwa [List.append_nil, unescape_nil, List.append_nil] at heq

/-- The bytes of an escaped string: those of the set, the escape character and the digits. -/
theorem mem_escapeNotIn (h : c ∈ escapeNotIn charset str) :
    charset c = true ∨ c = 37 ∨ isXdigit c = true := by
  obtain ⟨d, -, hc⟩ := List.mem_flatMap.1 h
  split_ifs at hc with hd
  · rw [List.mem_singleton.1 hc]
    exact .inl hd
  · obtain ⟨ha, hb, -⟩ := hexDigit_spec d
    simp only [List.mem_cons, List.not_mem_nil, or_false] at hc
    rcases hc with rfl | rfl | rfl
    · exact .inr (.inl rfl)
    · exact .inr (.inr ha)
    · exact .inr (.inr hb)

/-- A byte which is no digit is in an escaped string only as one of the set. -/
theorem notMem_escapeNotIn (hset : charset c = false) (hne : c ≠ 37) (hdigit : isXdigit c = false) :
    c ∉ escapeNotIn charset str := by
  intro h
  rcases mem_escapeNotIn h with h | h | h
  · exact Bool.false_ne_true (hset.symm.trans h)
  · exact hne h
  · exact Bool.false_ne_true (hdigit.symm.trans h)

/-- A byte which is written in no escape sequence was there before. -/
theorem mem_of_mem_escapeNotIn (hne : c ≠ 37) (hdigit : isXdigit c = false)
    (h : c ∈ escapeNotIn charset str) : c ∈ str := by
  obtain ⟨d, hd, hc⟩ := List.mem_flatMap.1 h
  split_ifs at hc
  · rwa [List.mem_singleton.1 hc]
  · obtain ⟨ha, hb, -⟩ := hexDigit_spec d
    simp only [List.mem_cons, List.not_mem_nil, or_false] at hc
    rcases hc with rfl | rfl | rfl
    · exact absurd rfl hne
    · exact absurd (hdigit.symm.trans ha) Bool.false_ne_true
    · exact absurd (hdigit.symm.trans hb) Bool.false_ne_true

/-! ### What is not left alone -/

theorem length_unescape_le (str : List UInt8) : (unescape str).length ≤ str.length := by
  fun_induction unescape str with
  | case1 c a b rest h ih =>
    simp only [List.length_cons]
    omega
  | case2 c a b rest h ih =>
    simp only [List.length_cons] at ih ⊢
    omega
  | case3 c rest _ ih =>
    simp only [List.length_cons]
    omega
  | case4 => exact Nat.le_refl _

/-- A string which is changed becomes shorter. -/
theorem length_unescape_lt (h : unescape str ≠ str) : (unescape str).length < str.length := by
  fun_induction unescape str with
  | case1 c a b rest hesc ih =>
    have hle := length_unescape_le rest
    simp only [List.length_cons]
    omega
  | case2 c a b rest hesc ih =>
    have hlt := ih fun heq => h (by rw [heq])
    simp only [List.length_cons] at hlt ⊢
    omega
  | case3 c rest _ ih =>
    have hlt := ih fun heq => h (by rw [heq])
    simp only [List.length_cons]
    omega
  | case4 => exact absurd rfl h

end Neoip
