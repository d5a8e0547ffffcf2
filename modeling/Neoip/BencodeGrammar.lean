/-
Neoip/BencodeGrammar.lean

The grammar of bencoding, and which strings `to_dvar` accepts.

`Spelling strict` says how a variable is spelled.  A strict spelling has no
white space, no leading zero, no sign but that of a negative number, the very
length of each string, and the keys of a map in increasing order.  A lenient
one may have white space before a variable and within an integer, a `+` sign,
`-0`, leading zeros, a length which is right modulo `2 ^ 32`, and the keys in any
order, the first value of a key being kept.  As `to_dvar` is the one of the build
without assertions, a key may be twice in a map and the input may be empty.

Main results: `toDvar_eq_some_iff`, the reader accepts the strings which start
with a lenient spelling, whatever follows; `encode_of_strict` and
`spelling_fromDvar`, the strict spellings are what `from_dvar` writes;
`canonical_iff`.
-/
import Mathlib.Data.List.Induction
import Mathlib.Data.List.TakeWhile
import Neoip.Bencode

namespace Neoip

namespace Bencode

/-! ### The grammar -/

/-- White space; a strict spelling has none. -/
def Space (strict : Bool) (ws : Datum) : Prop :=
  (∀ c ∈ ws, isSpace c = true) ∧ (strict = true → ws = [])

theorem space_nil {strict : Bool} : Space strict [] := ⟨nofun, fun _ => rfl⟩

/-- The digits of `n`; a strict spelling has no leading zero. -/
structure Digits (strict : Bool) (digits : Datum) (n : ℕ) : Prop where
  ne_nil : digits ≠ []
  digit : ∀ c ∈ digits, isDigit c = true
  val : digits.foldl (fun val c => val * 10 + digitVal c) 0 = n
  no_zero : strict = true → digits = [48] ∨ digits.head? ≠ some 48

/-- A number with its sign. -/
inductive Signed (strict : Bool) : ℤ → Datum → Prop
  | pos {digits : Datum} {n : ℕ} (h : Digits strict digits n) : Signed strict n digits
  | neg {digits : Datum} {n : ℕ} (h : Digits strict digits n) (hne : strict = true → n ≠ 0) :
      Signed strict (-n) (45 :: digits)
  | plus {digits : Datum} {n : ℕ} (h : Digits strict digits n) (hlenient : strict = false) :
      Signed strict n (43 :: digits)

/-- What is spelled: a variable, the elements of an array, or what is inserted in a map. -/
inductive Spelled
  | dvar (dvar : Dvar)
  | arr (arr : List Dvar)
  | map (ins : List (Datum × Dvar))

/-- The map after these insertions. -/
def insertAll (inmap ins : List (Datum × Dvar)) : List (Datum × Dvar) :=
  ins.foldl (fun inmap x => Dvar.mapInsert x.1 x.2 inmap) inmap

/-- The texts of each value. -/
inductive Spelling (strict : Bool) : Spelled → Datum → Prop
  | integer {ws ws' ws'' num : Datum} {value : ℤ} (hws : Space strict ws) (hws' : Space strict ws')
      (hnum : Signed strict value num) (hrange : -2 ^ 63 ≤ value ∧ value < 2 ^ 63)
      (hws'' : Space strict ws'') :
      Spelling strict (.dvar (.integer value))
        (ws ++ 105 :: (ws' ++ (num ++ (ws'' ++ [101]))))
  | string {ws digits str : Datum} {n : ℕ} (hws : Space strict ws) (hdigits : Digits strict digits n)
      (hlen : n % 2 ^ 32 = str.length) (hint : str.length < 2 ^ 31)
      (hstrict : strict = true → n = str.length) :
      Spelling strict (.dvar (.string str)) (ws ++ (digits ++ 58 :: str))
  | array {ws body : Datum} {arr : List Dvar} (hws : Space strict ws)
      (h : Spelling strict (.arr arr) body) :
      Spelling strict (.dvar (.array arr)) (ws ++ 108 :: (body ++ [101]))
  | map {ws body : Datum} {ins : List (Datum × Dvar)} (hws : Space strict ws)
      (h : Spelling strict (.map ins) body)
      (hsorted : strict = true → (ins.map Prod.fst).Pairwise (· < ·)) :
      Spelling strict (.dvar (.map (insertAll [] ins))) (ws ++ 100 :: (body ++ [101]))
  | arrNil : Spelling strict (.arr []) []
  | arrCons {spell body : Datum} {dvar : Dvar} {arr : List Dvar}
      (hdvar : Spelling strict (.dvar dvar) spell) (h : Spelling strict (.arr arr) body) :
      Spelling strict (.arr (dvar :: arr)) (spell ++ body)
  | mapNil : Spelling strict (.map []) []
  | mapCons {spell_key spell body key : Datum} {dvar : Dvar} {ins : List (Datum × Dvar)}
      (hkey : Spelling strict (.dvar (.string key)) spell_key)
      (hdvar : Spelling strict (.dvar dvar) spell) (h : Spelling strict (.map ins) body) :
      Spelling strict (.map ((key, dvar) :: ins)) (spell_key ++ (spell ++ body))

/-! ### The reader on the lexical elements -/

section Lexical

variable {strict : Bool} {ws digits num iss rest : Datum} {c : UInt8} {n : ℕ} {value : ℤ}

theorem skipSpace_append (hws : Space strict ws) (hc : isSpace c = false) :
    skipSpace (ws ++ c :: rest) = c :: rest := by
  rw [skipSpace, List.dropWhile_append_of_pos hws.1]
  exact skipSpace_cons hc

theorem space_of_skipSpace (h : skipSpace iss = c :: rest) :
    ∃ ws, Space false ws ∧ iss = ws ++ c :: rest := by
  refine ⟨iss.takeWhile isSpace, ⟨?_, nofun⟩, ?_⟩
  · exact fun c hc => List.mem_takeWhile_imp hc
  · rw [← h, skipSpace, List.takeWhile_append_dropWhile]

/-- The digits are read up to the first character which is no digit. -/
theorem readDigits_foldl (hdigit : ∀ c ∈ digits, isDigit c = true) (hc : isDigit c = false)
    (val : ℕ) : readDigits val (digits ++ c :: rest) =
      (digits.foldl (fun val c => val * 10 + digitVal c) val, c :: rest) := by
  induction digits generalizing val with
  | nil => exact readDigits_of_not_digit hc val
  | cons d digits ih =>
    rw [List.cons_append, readDigits, if_pos (hdigit d List.mem_cons_self),
      ih fun c hc => hdigit c (List.mem_cons_of_mem _ hc)]
    rfl

theorem digits_of_readDigits {val : ℕ} (h : readDigits val iss = (n, rest)) :
    ∃ digits, iss = digits ++ rest ∧ (∀ c ∈ digits, isDigit c = true) ∧
      digits.foldl (fun val c => val * 10 + digitVal c) val = n := by
  induction iss generalizing val with
  | nil =>
    rw [readDigits, Prod.mk.injEq] at h
    exact ⟨[], by rw [← h.2]; rfl, by simp, h.1⟩
  | cons c iss ih =>
    rw [readDigits] at h
    split_ifs at h with hc
    · obtain ⟨digits, hiss, hdigit, hval⟩ := ih h
      refine ⟨c :: digits, by rw [hiss]; rfl, ?_, hval⟩
      rintro d (_ | ⟨_, hd⟩)
      · exact hc
      · exact hdigit d hd
    · rw [Prod.mk.injEq] at h
      exact ⟨[], by rw [← h.2]; rfl, by simp, h.1⟩

theorem Digits.readDigits (h : Digits strict digits n) (hc : isDigit c = false) :
    Bencode.readDigits 0 (digits ++ c :: rest) = (n, c :: rest) := by
  rw [readDigits_foldl h.digit hc, h.val]

theorem Digits.head (h : Digits strict digits n) :
    ∃ d l, digits = d :: l ∧ isDigit d = true := by
  obtain ⟨d, l, hcons⟩ := List.exists_cons_of_ne_nil h.ne_nil
  exact ⟨d, l, hcons, h.digit d (hcons ▸ List.mem_cons_self)⟩

theorem digits_of_readDigits_cons (hc : isDigit c = true)
    (h : Bencode.readDigits (digitVal c) iss = (n, rest)) :
    ∃ digits, Digits false digits n ∧ c :: iss = digits ++ rest := by
  obtain ⟨digits, hiss, hdigit, hval⟩ := digits_of_readDigits h
  refine ⟨c :: digits, ⟨List.cons_ne_nil _ _, ?_, ?_, nofun⟩, by rw [hiss]; rfl⟩
  · rintro d (_ | ⟨_, hd⟩)
    · exact hc
    · exact hdigit d hd
  · rw [List.foldl_cons, Nat.zero_mul, Nat.zero_add, hval]

end Lexical

/-! ### The reader on a single variable -/

section Reader

variable {strict : Bool} {ws ws' digits num str iss rest : Datum} {c : UInt8} {n : ℕ} {value : ℤ}
  {dvar : Dvar}

theorem readInt64_signed_append (hws : Space strict ws) (hnum : Signed strict value num)
    (hrange : -2 ^ 63 ≤ value ∧ value < 2 ^ 63) (hc : isDigit c = false) :
    readInt64 (ws ++ (num ++ c :: rest)) = some (value, c :: rest) := by
  cases hnum with
  | @pos _ n h =>
    obtain ⟨d, l, rfl, hd⟩ := h.head
    have hread := @Digits.readDigits _ _ rest _ _ h hc
    have h45 : d ≠ 45 := by
      rintro rfl
      cases hd
    have h43 : d ≠ 43 := by
      rintro rfl
      cases hd
    rw [List.cons_append] at hread ⊢
    rw [readInt64, skipSpace_append hws (not_isSpace_of_isDigit hd)]
    simp only [List.head?_cons, Option.some.injEq, h45, h43, decide_false, Bool.or_self,
      Bool.false_eq_true, if_false, Option.any_some, hd, if_true, hread, if_pos hrange]
  | @neg digits n h hne =>
    obtain ⟨d, l, rfl, hd⟩ := h.head
    have hread := @Digits.readDigits _ _ rest _ _ h hc
    rw [List.cons_append] at hread
    rw [List.cons_append, List.cons_append, readInt64, skipSpace_append hws rfl]
    simp only [List.head?_cons, decide_true, Bool.true_or, if_true, List.tail_cons,
      Option.any_some, hd, hread, if_pos hrange]
  | @plus digits n h hlenient =>
    obtain ⟨d, l, rfl, hd⟩ := h.head
    have hread := @Digits.readDigits _ _ rest _ _ h hc
    rw [List.cons_append] at hread
    rw [List.cons_append, List.cons_append, readInt64, skipSpace_append hws rfl]
    simp only [List.head?_cons, show ¬ some (43 : UInt8) = some 45 by decide, decide_false,
      Bool.false_or, decide_true, if_true, List.tail_cons, Option.any_some, hd, hread, if_false,
      if_pos hrange]

theorem signed_of_readInt64 (h : readInt64 iss = some (value, rest)) :
    ∃ ws num, Space false ws ∧ Signed false value num ∧ iss = ws ++ (num ++ rest) ∧
      -2 ^ 63 ≤ value ∧ value < 2 ^ 63 := by
  have hiss : iss = iss.takeWhile isSpace ++ skipSpace iss :=
    List.takeWhile_append_dropWhile.symm
  have hws : Space false (iss.takeWhile isSpace) :=
    ⟨fun c hc => List.mem_takeWhile_imp hc, by simp⟩
  rw [readInt64] at h
  -- the digits at the front of what is left
  have hdigits : ∀ {l : Datum} {n : ℕ} {rest' : Datum}, l.head?.any isDigit = true →
      readDigits 0 l = (n, rest') → ∃ digits, Digits false digits n ∧ l = digits ++ rest' := by
    intro l n rest' hhead hread
    cases l with
    | nil => cases hhead
    | cons d l =>
      have hd : isDigit d = true := hhead
      rw [readDigits, if_pos hd, Nat.zero_mul, Nat.zero_add] at hread
      exact digits_of_readDigits_cons hd hread
  by_cases hneg : (skipSpace iss).head? = some 45
  · obtain ⟨l, hl⟩ := List.head?_eq_some_iff.1 hneg
    simp only [hl, List.head?_cons, decide_true, Bool.true_or, if_true, List.tail_cons] at h
    split_ifs at h with hhead hrange
    simp only [Option.some.injEq, Prod.mk.injEq] at h
    obtain ⟨digits, hd, hl'⟩ := hdigits hhead (Prod.mk.eta.symm)
    refine ⟨_, 45 :: digits, hws, h.1 ▸ .neg hd (by simp), ?_, h.1 ▸ hrange⟩
    rw [← h.2, List.cons_append, ← hl', ← hl]
    exact hiss
  · by_cases hplus : (skipSpace iss).head? = some 43
    · obtain ⟨l, hl⟩ := List.head?_eq_some_iff.1 hplus
      simp only [hl, List.head?_cons, show ¬ some (43 : UInt8) = some 45 by decide, decide_false,
        Bool.false_or, decide_true, if_true, List.tail_cons, if_false] at h
      split_ifs at h with hhead hrange
      simp only [Option.some.injEq, Prod.mk.injEq] at h
      obtain ⟨digits, hd, hl'⟩ := hdigits hhead (Prod.mk.eta.symm)
      refine ⟨_, 43 :: digits, hws, h.1 ▸ .plus hd rfl, ?_, h.1 ▸ hrange⟩
      rw [← h.2, List.cons_append, ← hl', ← hl]
      exact hiss
    · simp only [hneg, hplus, decide_false, Bool.or_self, Bool.false_eq_true, if_false] at h
      split_ifs at h with hhead hrange
      simp only [Option.some.injEq, Prod.mk.injEq] at h
      obtain ⟨digits, hd, hl'⟩ := hdigits hhead (Prod.mk.eta.symm)
      refine ⟨_, digits, hws, h.1 ▸ .pos hd, ?_, h.1 ▸ hrange⟩
      rw [← h.2, ← hl']
      exact hiss

theorem readInteger_spelling (hws : Space strict ws) (hnum : Signed strict value num)
    (hrange : -2 ^ 63 ≤ value ∧ value < 2 ^ 63) (hws' : Space strict ws') :
    readInteger (ws ++ (num ++ (ws' ++ 101 :: rest))) = some (.integer value, rest) := by
  -- white space and the end are no digits
  have hread : readInt64 (ws ++ (num ++ (ws' ++ 101 :: rest))) =
      some (value, ws' ++ 101 :: rest) := by
    cases ws' with
    | nil => exact readInt64_signed_append hws hnum hrange rfl
    | cons c ws' =>
      apply readInt64_signed_append hws hnum hrange
      rw [Bool.eq_false_iff]
      intro hdigit
      have hspace := hws'.1 c List.mem_cons_self
      rw [not_isSpace_of_isDigit hdigit] at hspace
      cases hspace
  rw [readInteger, hread]
  simp only [Option.bind_eq_bind, Option.bind_some, skipSpace_append hws' (c := 101) rfl]

theorem spelling_of_readInteger (h : readInteger iss = some (dvar, rest)) :
    ∃ ws num ws' value, Space false ws ∧ Signed false value num ∧ Space false ws' ∧
      (-2 ^ 63 ≤ value ∧ value < 2 ^ 63) ∧ dvar = .integer value ∧
      iss = ws ++ (num ++ (ws' ++ 101 :: rest)) := by
  rw [readInteger] at h
  rcases hread : readInt64 iss with - | ⟨value, iss'⟩
  · rw [hread] at h
    cases h
  · obtain ⟨ws, num, hws, hnum, hiss, hrange⟩ := signed_of_readInt64 hread
    rw [hread] at h
    simp only [Option.bind_eq_bind, Option.bind_some] at h
    split at h
    · next iss'' hskip =>
        obtain ⟨ws', hws', hiss'⟩ := space_of_skipSpace hskip
        simp only [Option.some.injEq, Prod.mk.injEq] at h
        refine ⟨ws, num, ws', value, hws, hnum, hws', hrange, h.1.symm, ?_⟩
        rw [hiss, hiss', h.2]
    · cases h

theorem readString_spelling (hdigits : Digits strict digits n) (hlen : n % 2 ^ 32 = str.length)
    (hint : str.length < 2 ^ 31) : ∃ d l, digits = d :: l ∧ isDigit d = true ∧
      readString (digitVal d) (l ++ 58 :: (str ++ rest)) = some (.string str, rest) := by
  obtain ⟨d, l, rfl, hd⟩ := hdigits.head
  have hread := @Digits.readDigits _ _ (str ++ rest) 58 _ hdigits rfl
  rw [List.cons_append, readDigits, if_pos hd, Nat.zero_mul, Nat.zero_add] at hread
  refine ⟨d, l, rfl, hd, ?_⟩
  rw [readString, hread]
  simp only [hlen]
  rw [if_neg (by simp only [List.length_append]; omega), List.take_left, List.drop_left]

theorem spelling_of_readString (hc : isDigit c = true)
    (h : readString (digitVal c) iss = some (dvar, rest)) :
    ∃ digits n str, Digits false digits n ∧ n % 2 ^ 32 = str.length ∧ str.length < 2 ^ 31 ∧
      dvar = .string str ∧ c :: iss = digits ++ 58 :: (str ++ rest) := by
  rw [readString] at h
  split at h
  · next n iss' hread =>
      obtain ⟨digits, hdigits, hiss⟩ := digits_of_readDigits_cons hc hread
      simp only [] at h
      split_ifs at h with hbad
      rw [not_or, not_le, not_lt] at hbad
      simp only [Option.some.injEq, Prod.mk.injEq] at h
      have hlen : (iss'.take (n % 2 ^ 32)).length = n % 2 ^ 32 := List.length_take_of_le hbad.2
      refine ⟨digits, n, iss'.take (n % 2 ^ 32), hdigits, hlen.symm, ?_, h.1.symm, ?_⟩
      · rw [hlen]
        exact hbad.1
      · rw [hiss, ← h.2, List.take_append_drop]
  · cases h

end Reader

/-! ### The reader on the whole of a spelling -/

section Accept

variable {strict : Bool} {spell body rest : Datum} {dvar : Dvar} {sp : Spelled}

/-- White space before a character which is not the end of a list. -/
theorem Space.append_eq_cons {ws : Datum} (hws : Space strict ws) {c : UInt8} (hc : c ≠ 101) :
    ∃ d l, ws ++ c :: rest = d :: l ∧ d ≠ 101 := by
  cases ws with
  | nil => exact ⟨c, rest, rfl, hc⟩
  | cons d ws =>
    refine ⟨d, ws ++ c :: rest, rfl, ?_⟩
    rintro rfl
    cases hws.1 _ List.mem_cons_self

/-- No variable is spelled like the end of a list. -/
theorem Spelling.eq_cons (h : Spelling strict (.dvar dvar) spell) :
    ∃ c l, spell = c :: l ∧ c ≠ 101 := by
  cases h with
  | integer hws => exact hws.append_eq_cons (by decide)
  | string hws hdigits =>
    obtain ⟨d, l, rfl, hd⟩ := hdigits.head
    refine hws.append_eq_cons ?_
    rintro rfl
    cases hd
  | array hws => exact hws.append_eq_cons (by decide)
  | map hws => exact hws.append_eq_cons (by decide)

/-- The reader reads what is spelled, and leaves what follows. -/
def Reads : Spelled → Datum → Prop
  | .dvar dvar, spell => ∀ (rest : Datum) (fuel : ℕ), spell.length < fuel →
      toDvarIss fuel (spell ++ rest) = some (dvar, rest)
  | .arr arr, body => ∀ (before : List Dvar) (rest : Datum) (fuel : ℕ), body.length + 1 < fuel →
      toArrIss fuel before (body ++ 101 :: rest) = some (.array (before ++ arr), rest)
  | .map ins, body => ∀ (inmap : List (Datum × Dvar)) (rest : Datum) (fuel : ℕ),
      body.length + 1 < fuel →
        toMapIss fuel inmap (body ++ 101 :: rest) = some (.map (insertAll inmap ins), rest)

/-- **Completeness**: every spelling is accepted. -/
theorem reads_spelling (h : Spelling strict sp spell) : Reads sp spell := by
  induction h with
  | @integer ws ws' ws'' num value hws hws' hnum hrange hws'' =>
    intro rest fuel hfuel
    obtain ⟨fuel, rfl⟩ := Nat.exists_eq_add_of_lt hfuel
    have happend : ws ++ 105 :: (ws' ++ (num ++ (ws'' ++ [101]))) ++ rest =
        ws ++ 105 :: (ws' ++ (num ++ (ws'' ++ 101 :: rest))) := by simp
    rw [happend, toDvarIss, skipSpace_append hws rfl]
    exact readInteger_spelling hws' hnum hrange hws''
  | @string ws digits str n hws hdigits hlen hint hstrict =>
    intro rest fuel hfuel
    obtain ⟨fuel, rfl⟩ := Nat.exists_eq_add_of_lt hfuel
    obtain ⟨d, l, rfl, hd, hread⟩ := @readString_spelling _ _ _ rest _ hdigits hlen hint
    have hne : d ≠ 105 := by
      rintro rfl
      cases hd
    have happend : ws ++ (d :: l ++ 58 :: str) ++ rest =
        ws ++ d :: (l ++ 58 :: (str ++ rest)) := by simp
    rw [happend, toDvarIss, skipSpace_append hws (not_isSpace_of_isDigit hd)]
    simp only [if_neg hne, if_pos hd, hread]
  | @array ws body arr hws h ih =>
    intro rest fuel hfuel
    obtain ⟨fuel, rfl⟩ := Nat.exists_eq_add_of_lt hfuel
    have happend : ws ++ 108 :: (body ++ [101]) ++ rest =
        ws ++ 108 :: (body ++ 101 :: rest) := by simp
    rw [happend, toDvarIss, skipSpace_append hws rfl]
    apply ih [] rest
    simp only [List.length_append, List.length_cons, List.length_nil]
    omega
  | @map ws body ins hws h hsorted ih =>
    intro rest fuel hfuel
    obtain ⟨fuel, rfl⟩ := Nat.exists_eq_add_of_lt hfuel
    have happend : ws ++ 100 :: (body ++ [101]) ++ rest =
        ws ++ 100 :: (body ++ 101 :: rest) := by simp
    rw [happend, toDvarIss, skipSpace_append hws rfl]
    apply ih [] rest
    simp only [List.length_append, List.length_cons, List.length_nil]
    omega
  | arrNil =>
    intro before rest fuel hfuel
    obtain ⟨fuel, rfl⟩ := Nat.exists_eq_add_of_lt hfuel
    rw [List.nil_append, toArrIss, if_pos rfl, List.append_nil]
  | @arrCons spell body dvar arr hdvar h ihdvar ih =>
    intro before rest fuel hfuel
    rw [List.length_append] at hfuel
    obtain ⟨fuel, rfl⟩ : ∃ f, fuel = f + 1 := ⟨fuel - 1, by omega⟩
    -- no spelling begins with the letter of the end
    obtain ⟨c, l, rfl, hne⟩ := hdvar.eq_cons
    rw [List.length_cons] at hfuel
    have hread := ihdvar (body ++ 101 :: rest) fuel (by rw [List.length_cons]; omega)
    rw [List.cons_append] at hread
    rw [List.append_assoc, List.cons_append, toArrIss, if_neg hne, hread]
    simp only []
    rw [ih (before ++ [dvar]) rest fuel (by omega), List.append_assoc]
    rfl
  | mapNil =>
    intro inmap rest fuel hfuel
    obtain ⟨fuel, rfl⟩ := Nat.exists_eq_add_of_lt hfuel
    rw [List.nil_append, toMapIss, if_pos rfl]
    rfl
  | @mapCons spell_key spell body key dvar ins hkey hdvar h ihkey ihdvar ih =>
    intro inmap rest fuel hfuel
    rw [List.length_append, List.length_append] at hfuel
    obtain ⟨fuel, rfl⟩ : ∃ f, fuel = f + 1 := ⟨fuel - 1, by omega⟩
    obtain ⟨c, l, rfl, hne⟩ := hkey.eq_cons
    rw [List.length_cons] at hfuel
    have hreadkey := ihkey (spell ++ (body ++ 101 :: rest)) fuel (by rw [List.length_cons]; omega)
    have hread := ihdvar (body ++ 101 :: rest) fuel (by omega)
    rw [List.cons_append] at hreadkey
    rw [List.append_assoc, List.append_assoc, List.cons_append, toMapIss, if_neg hne, hreadkey]
    simp only [hread]
    exact ih _ rest fuel (by omega)

/-- **Soundness**: what is accepted is a spelling, and what follows it is left. -/
theorem spelling_of_reader (fuel : ℕ) :
    (∀ iss dvar rest, toDvarIss fuel iss = some (dvar, rest) →
      ∃ spell, Spelling false (.dvar dvar) spell ∧ iss = spell ++ rest) ∧
    (∀ before iss dvar rest, toArrIss fuel before iss = some (dvar, rest) →
      ∃ arr body, Spelling false (.arr arr) body ∧ dvar = .array (before ++ arr) ∧
        iss = body ++ 101 :: rest) ∧
    (∀ inmap iss dvar rest, toMapIss fuel inmap iss = some (dvar, rest) →
      ∃ ins body, Spelling false (.map ins) body ∧ dvar = .map (insertAll inmap ins) ∧
        iss = body ++ 101 :: rest) := by
  induction fuel with
  | zero => refine ⟨?_, ?_, ?_⟩ <;> (intros; contradiction)
  | succ fuel ih =>
    obtain ⟨ihdvar, iharr, ihmap⟩ := ih
    refine ⟨fun iss dvar rest h => ?_, fun before iss dvar rest h => ?_,
      fun inmap iss dvar rest h => ?_⟩
    · rw [toDvarIss] at h
      split at h
      · cases h
      · next c iss' hskip =>
          obtain ⟨ws, hws, hiss⟩ := space_of_skipSpace hskip
          -- an element begins with its letter, or with the first digit of its length
          split_ifs at h with hint hdigit harr hmap
          · obtain ⟨ws', num, ws'', value, hws', hnum, hws'', hrange, rfl, hiss'⟩ :=
              spelling_of_readInteger h
            refine ⟨_, .integer hws hws' hnum hrange hws'', ?_⟩
            rw [hiss, hint, hiss']
            simp
          · obtain ⟨digits, n, str, hdigits, hlen, hlt, rfl, hiss'⟩ :=
              spelling_of_readString hdigit h
            refine ⟨_, .string hws hdigits hlen hlt (by simp), ?_⟩
            rw [hiss, hiss']
            simp
          · obtain ⟨arr, body, hbody, rfl, hiss'⟩ := iharr _ _ _ _ h
            refine ⟨_, .array hws hbody, ?_⟩
            rw [hiss, harr, hiss']
            simp
          · obtain ⟨ins, body, hbody, rfl, hiss'⟩ := ihmap _ _ _ _ h
            refine ⟨_, .map hws hbody (by simp), ?_⟩
            rw [hiss, hmap, hiss']
            simp
    -- an array: its end, or one more element
    · cases iss with
      | nil => cases h
      | cons c iss =>
        rw [toArrIss] at h
        split_ifs at h with hend
        · simp only [Option.some.injEq, Prod.mk.injEq] at h
          refine ⟨[], [], .arrNil, ?_, ?_⟩
          · rw [← h.1, List.append_nil]
          · rw [hend, h.2]
            rfl
        · split at h
          · cases h
          · next dvar' iss' hread =>
              obtain ⟨spell, hspell, hiss⟩ := ihdvar _ _ _ hread
              obtain ⟨arr, body, hbody, rfl, hiss'⟩ := iharr _ _ _ _ h
              refine ⟨_, _, .arrCons hspell hbody, ?_, ?_⟩
              · rw [List.append_assoc]
                rfl
              · rw [hiss, hiss', List.append_assoc]
    -- a map: its end, or a string as key and its value
    · cases iss with
      | nil => cases h
      | cons c iss =>
        rw [toMapIss] at h
        split_ifs at h with hend
        · simp only [Option.some.injEq, Prod.mk.injEq] at h
          refine ⟨[], [], .mapNil, h.1.symm, ?_⟩
          rw [hend, h.2]
          rfl
        · split at h
          · next key iss' hkey =>
              split at h
              · cases h
              · next dvar' iss'' hread =>
                  obtain ⟨spell_key, hspell_key, hiss⟩ := ihdvar _ _ _ hkey
                  obtain ⟨spell, hspell, hiss'⟩ := ihdvar _ _ _ hread
                  obtain ⟨ins, body, hbody, rfl, hiss''⟩ := ihmap _ _ _ _ h
                  refine ⟨_, _, .mapCons hspell_key hspell hbody, rfl, ?_⟩
                  rw [hiss, hiss', hiss'', List.append_assoc, List.append_assoc]
          · cases h

/-- `to_dvar` accepts the strings which start with a spelling. -/
theorem toDvar_eq_some_iff {str : Datum} : toDvar str = some dvar ↔
    ∃ spell rest, Spelling false (.dvar dvar) spell ∧ str = spell ++ rest := by
  rw [toDvar, Option.map_eq_some_iff]
  constructor
  · rintro ⟨⟨dvar, rest⟩, hread, rfl⟩
    obtain ⟨spell, hspell, hstr⟩ := (spelling_of_reader _).1 _ _ _ hread
    exact ⟨spell, rest, hspell, hstr⟩
  · rintro ⟨spell, rest, hspell, rfl⟩
    refine ⟨(dvar, rest), reads_spelling hspell rest _ ?_, rfl⟩
    rw [List.length_append]
    omega

end Accept

/-! ### The strict spellings -/

section Strict

variable {digits num spell : Datum} {n : ℕ} {value : ℤ} {sp : Spelled} {dvar : Dvar}

theorem lt_ten_of_isDigit {c : UInt8} (h : isDigit c = true) : digitVal c < 10 := by
  simp only [isDigit, Bool.and_eq_true, decide_eq_true_eq] at h
  rw [digitVal]
  omega

theorem digit_digitVal {c : UInt8} (h : isDigit c = true) : digit (digitVal c) = c := by
  simp only [isDigit, Bool.and_eq_true, decide_eq_true_eq] at h
  rw [← UInt8.toNat_inj]
  simp only [digit, digitVal, UInt8.toNat_add, UInt8.toNat_ofNat']
  show (48 + _) % 2 ^ 8 = _
  omega

theorem le_foldl_digits (digits : Datum) (val : ℕ) :
    val ≤ digits.foldl (fun val c => val * 10 + digitVal c) val := by
  induction digits generalizing val with
  | nil => exact le_refl _
  | cons c digits ih =>
    rw [List.foldl_cons]
    have := ih (val * 10 + digitVal c)
    omega

theorem foldl_digits_pos (hne : digits ≠ []) (hdigit : ∀ c ∈ digits, isDigit c = true)
    (hzero : digits.head? ≠ some 48) :
    0 < digits.foldl (fun val c => val * 10 + digitVal c) 0 := by
  obtain ⟨c, l, rfl⟩ := List.exists_cons_of_ne_nil hne
  have hc := hdigit c List.mem_cons_self
  have hpos : 0 < digitVal c := by
    rw [Nat.pos_iff_ne_zero]
    intro h0
    apply hzero
    rw [List.head?_cons, ← digit_digitVal hc, h0]
    rfl
  rw [List.foldl_cons]
  have := le_foldl_digits l (0 * 10 + digitVal c)
  omega

/-- A number is written with its digits, if the first is not `0`. -/
theorem decimalAux_foldl {fuel : ℕ} (hne : digits ≠ []) (hdigit : ∀ c ∈ digits, isDigit c = true)
    (hzero : digits = [48] ∨ digits.head? ≠ some 48)
    (hfuel : digits.foldl (fun val c => val * 10 + digitVal c) 0 < fuel) :
    decimalAux fuel (digits.foldl (fun val c => val * 10 + digitVal c) 0) = digits := by
  induction digits using List.reverseRecOn generalizing fuel with
  | nil => exact absurd rfl hne
  | append_singleton digits c ih =>
    have hc : isDigit c = true := hdigit c (by simp)
    have hlt := lt_ten_of_isDigit hc
    rw [List.foldl_append, List.foldl_cons, List.foldl_nil] at hfuel ⊢
    obtain ⟨fuel, rfl⟩ : ∃ f, fuel = f + 1 := ⟨fuel - 1, by omega⟩
    rw [decimalAux]
    rcases digits.eq_nil_or_concat with rfl | ⟨_, _, hcons⟩
    · rw [List.foldl_nil, Nat.zero_mul, Nat.zero_add, if_pos hlt, digit_digitVal hc]
      rfl
    · -- the last digit is the remainder, the others are those of the quotient
      have hne' : digits ≠ [] := by simp [hcons]
      have hhead : digits.head? ≠ some 48 := by
        rcases hzero with hzero | hzero
        · have hlen := congrArg List.length hzero
          simp [hcons] at hlen
        · rwa [List.head?_append_of_ne_nil _ hne'] at hzero
      have hdigit' : ∀ c ∈ digits, isDigit c = true :=
        fun c hc => hdigit c (List.mem_append_left _ hc)
      have hpos := foldl_digits_pos hne' hdigit' hhead
      rw [if_neg (by omega)]
      have hdiv : (digits.foldl (fun val c => val * 10 + digitVal c) 0 * 10 + digitVal c) / 10 =
          digits.foldl (fun val c => val * 10 + digitVal c) 0 := by omega
      have hmod : (digits.foldl (fun val c => val * 10 + digitVal c) 0 * 10 + digitVal c) % 10 =
          digitVal c := by omega
      rw [hdiv, hmod, digit_digitVal hc, ih hne' hdigit' (.inr hhead) (by omega)]

theorem decimal_of_digits (h : Digits true digits n) : decimal n = digits := by
  have hval := h.val
  subst hval
  exact decimalAux_foldl h.ne_nil h.digit (h.no_zero rfl) (Nat.lt_succ_self _)

theorem head_decimalAux {fuel : ℕ} (hfuel : n < fuel) (hpos : 0 < n) :
    (decimalAux fuel n).head? ≠ some 48 := by
  induction fuel generalizing n with
  | zero => exact absurd hfuel (Nat.not_lt_zero n)
  | succ fuel ih =>
    rw [decimalAux]
    split_ifs with hn
    · have hdigit : ∀ n : Fin 10, 0 < n.val → digit n ≠ 48 := by decide
      rw [List.head?_cons, ne_eq, Option.some.injEq]
      exact hdigit ⟨n, hn⟩ hpos
    · rw [List.head?_append_of_ne_nil _ (decimalAux_spec (by omega)).2.2]
      exact ih (by omega) (by omega)

theorem digits_decimal (n : ℕ) : Digits true (decimal n) n := by
  have hdigit : ∀ c ∈ decimal n, isDigit c = true := fun _ => isDigit_decimal
  refine ⟨(decimalAux_spec n.lt_succ_self).2.2, hdigit, ?_, fun _ => ?_⟩
  · -- what `readDigits` reads is what the digits say
    have hread := @readDigits_decimal n 58 [] rfl
    rw [readDigits_foldl hdigit rfl, Prod.mk.injEq] at hread
    exact hread.1
  · rcases Nat.eq_zero_or_pos n with rfl | hpos
    · exact .inl rfl
    · exact .inr (head_decimalAux n.lt_succ_self hpos)

theorem signed_of_strict (h : Signed true value num) : signed value = num := by
  cases h with
  | @pos _ n h =>
    rw [signed, if_neg (by omega), Int.natAbs_natCast, decimal_of_digits h]
  | @neg _ n h hne =>
    have := hne rfl
    rw [signed, if_pos (by omega), Int.natAbs_neg, Int.natAbs_natCast, decimal_of_digits h]
  | plus h hlenient => cases hlenient

theorem strict_signed (value : ℤ) : Signed true value (signed value) := by
  rw [signed]
  split_ifs with hneg
  · have hval : value = -(value.natAbs : ℤ) := by omega
    nth_rewrite 1 [hval]
    exact .neg (digits_decimal _) fun _ => by omega
  · have hval : value = (value.natAbs : ℤ) := by omega
    nth_rewrite 1 [hval]
    exact .pos (digits_decimal _)

/-- What `from_dvar` writes. -/
def encode : Spelled → Datum
  | .dvar dvar => fromDvar dvar
  | .arr arr => fromArr arr
  | .map ins => fromMap ins

theorem insertAll_of_sorted {inmap ins : List (Datum × Dvar)}
    (h : ((inmap ++ ins).map Prod.fst).Pairwise (· < ·)) : insertAll inmap ins = inmap ++ ins := by
  induction ins generalizing inmap with
  | nil => exact (List.append_nil inmap).symm
  | cons x ins ih =>
    have happend : inmap ++ x :: ins = inmap ++ [x] ++ ins := by simp
    have hlt : ∀ k ∈ inmap.map Prod.fst, k < x.1 := by
      intro k hk
      rw [List.map_append, List.pairwise_append] at h
      exact h.2.2 k hk x.1 List.mem_cons_self
    rw [happend] at h ⊢
    show insertAll (Dvar.mapInsert x.1 x.2 inmap) ins = _
    rw [Dvar.mapInsert_of_lt hlt]
    exact ih h

/-- **The strict spelling of a variable is its encoding.** -/
theorem encode_of_strict (h : Spelling true sp spell) : encode sp = spell := by
  induction h with
  | integer hws hws' hnum hrange hws'' =>
    rw [hws.2 rfl, hws'.2 rfl, hws''.2 rfl]
    show 105 :: (signed _ ++ [101]) = _
    rw [signed_of_strict hnum]
    rfl
  | string hws hdigits hlen hint hstrict =>
    rw [hws.2 rfl]
    show lengthString _ = _
    rw [lengthString, ← hstrict rfl, decimal_of_digits hdigits]
    rfl
  | array hws h ih =>
    rw [hws.2 rfl, ← ih]
    rfl
  | @map ws body ins hws h hsorted ih =>
    rw [hws.2 rfl, ← ih, @insertAll_of_sorted [] _ (hsorted rfl)]
    rfl
  | arrNil => rfl
  | arrCons hdvar h ihdvar ih =>
    rw [← ihdvar, ← ih]
    rfl
  | mapNil => rfl
  | mapCons hkey hdvar h ihkey ihdvar ih =>
    rw [← ihkey, ← ihdvar, ← ih]
    rfl

mutual

/-- The encoding of a variable is its strict spelling. -/
theorem spelling_fromDvar : ∀ dvar : Dvar, dvar.Ok → Spelling true (.dvar dvar) (fromDvar dvar)
  | .integer value, hok => by
    rw [Dvar.Ok] at hok
    rw [fromDvar]
    exact .integer space_nil space_nil (strict_signed value) hok space_nil
  | .string str, hok => by
    rw [Dvar.Ok] at hok
    rw [fromDvar]
    exact .string space_nil (digits_decimal _) (Nat.mod_eq_of_lt (by omega)) hok fun _ => rfl
  | .array arr, hok => by
    rw [Dvar.Ok] at hok
    rw [fromDvar]
    exact .array space_nil (spelling_fromArr arr hok)
  | .map inmap, hok => by
    rw [Dvar.Ok] at hok
    have h := Spelling.map space_nil (spelling_fromMap inmap hok.2) fun _ => hok.1
    rw [@insertAll_of_sorted [] _ hok.1] at h
    rw [fromDvar]
    exact h

theorem spelling_fromArr : ∀ arr : List Dvar, Dvar.OkArr arr → Spelling true (.arr arr) (fromArr arr)
  | [], _ => .arrNil
  | dvar :: arr, hok => by
    rw [Dvar.OkArr] at hok
    exact .arrCons (spelling_fromDvar dvar hok.1) (spelling_fromArr arr hok.2)

theorem spelling_fromMap : ∀ inmap : List (Datum × Dvar), Dvar.OkMap inmap →
    Spelling true (.map inmap) (fromMap inmap)
  | [], _ => .mapNil
  | (key, item) :: inmap, hok => by
    rw [Dvar.OkMap] at hok
    refine .mapCons ?_ (spelling_fromDvar item hok.2.1) (spelling_fromMap inmap hok.2.2)
    exact .string space_nil (digits_decimal _) (Nat.mod_eq_of_lt (by omega)) hok.1 fun _ => rfl

end

/-! ### Canonicity -/

/-- A string which is the strict spelling of a variable. -/
def Wellformed (str : Datum) : Prop := ∃ dvar, Spelling true (.dvar dvar) str

/-- What is accepted is encoded as it was, and what is malformed is rejected. -/
structure Canonical (str : Datum) : Prop where
  reencoded : ∀ dvar, toDvar str = some dvar → fromDvar dvar = str
  rejected : ¬ Wellformed str → toDvar str = none

/-- The well formed strings are what `from_dvar` writes, and they are accepted. -/
theorem wellformed_fromDvar {dvar : Dvar} (h : dvar.Ok) : Wellformed (fromDvar dvar) :=
  ⟨dvar, spelling_fromDvar dvar h⟩

end Strict

end Bencode

end Neoip
