/-
Neoip/JoinedNames.lean

Strings of names, each one after a separator.

Splitting, escaping and unescaping such a string does the same to each part, since a
separator is neither escaped nor a part of an escape sequence
(`escapeNotIn_joined`, `unescape_joined`); the path of the string is the walk of its
parts (`parsePath_joined`).  A separator with a name and one more separator is found
at the first part which is this name and is followed by another one
(`findSubstr_joined_iff`).
-/
import Neoip.HttpUriRound

namespace Neoip

/-! ### Searching -/

section Search

variable {c : UInt8} {substr str rest : Datum}

/-- What does not hold the first character is passed over. -/
theorem findSubstr_append_of_notMem (h : c ∉ str) (rest : Datum) :
    findSubstr (c :: substr) (str ++ rest) =
      (findSubstr (c :: substr) rest).map (· + str.length) := by
  induction str with
  | nil => exact Option.map_id'.symm
  | cons d str ih =>
    have hne : ¬ c :: substr <+: d :: (str ++ rest) := fun hprefix =>
      h ((List.cons_prefix_cons.1 hprefix).1 ▸ List.mem_cons_self ..)
    rw [List.cons_append, findSubstr, if_neg hne, ih fun hmem => h (List.mem_cons_of_mem _ hmem),
      Option.map_map]
    rfl

end Search

/-! ### Joined names -/

/-- Each part after a separator. -/
def joined (parts : List Datum) : Datum := parts.flatMap (47 :: ·)

variable {part str rest : Datum} {parts parts' : List Datum}

@[simp] theorem joined_nil : joined [] = [] := rfl

@[simp] theorem joined_cons (part : Datum) (parts : List Datum) :
    joined (part :: parts) = 47 :: (part ++ joined parts) := rfl

@[simp] theorem joined_append (parts parts' : List Datum) :
    joined (parts ++ parts') = joined parts ++ joined parts' := List.flatMap_append

theorem head?_joined {c : UInt8} (h : (joined parts ++ rest).head? = some c) :
    c = 47 ∨ rest.head? = some c := by
  cases parts with
  | nil => exact .inr h
  | cons part parts => exact .inl (Option.some.inj h).symm

theorem eq_or_exists_of_mem_joined {c : UInt8} (h : c ∈ joined parts) :
    c = 47 ∨ ∃ part ∈ parts, c ∈ part := by
  obtain ⟨part, hpart, hc⟩ := List.mem_flatMap.1 h
  exact (List.mem_cons.1 hc).imp_right fun hc => ⟨part, hpart, hc⟩

theorem splitSepa_append_joined (str : Datum) (parts : List Datum) :
    splitSepa (str ++ joined parts) = splitSepa str ++ parts.flatMap splitSepa := by
  induction parts generalizing str with
  | nil => simp
  | cons part parts ih =>
    rw [joined_cons, splitSepa_append_cons _ _ rfl, ih, List.flatMap_cons]

theorem flatMap_splitSepa (h : NoSepa parts) : parts.flatMap splitSepa = parts := by
  induction parts with
  | nil => rfl
  | cons part parts ih =>
    rw [List.flatMap_cons, splitSepa_eq_singleton (h part (List.mem_cons_self ..)),
      ih fun p hp => h p (List.mem_cons_of_mem _ hp)]
    rfl

/-- A character of no escape sequence separates them. -/
theorem unescape_append_cons {c : UInt8} (hne : c ≠ 37) (hdigit : isXdigit c = false) (str rest : Datum) :
    unescape (str ++ c :: rest) = unescape str ++ c :: unescape rest := by
  fun_induction unescape str with
  | case1 d a b str h ih =>
    rw [List.cons_append, List.cons_append, List.cons_append, unescape, if_pos h, ih]
    rfl
  | case2 d a b str h ih =>
    rw [List.cons_append, List.cons_append, List.cons_append, unescape, if_neg h]
    exact congrArg (d :: ·) ih
  | case3 d str hshort ih =>
    rw [List.cons_append, List.cons_append, ← ih]
    rcases str with - | ⟨a, - | ⟨b, str⟩⟩
    · rcases rest with - | ⟨b, rest⟩
      · rfl
      · rw [List.nil_append, unescape, if_neg fun hall => Bool.false_ne_true (hdigit.symm.trans hall.2.1)]
    · rw [List.cons_append, List.nil_append, unescape,
        if_neg fun hall => Bool.false_ne_true (hdigit.symm.trans hall.2.2)]
    · exact absurd rfl (hshort a b str)
  | case4 => exact unescape_cons_of_ne hne rest

theorem unescape_append_joined (str : Datum) (parts : List Datum) :
    unescape (str ++ joined parts) = unescape str ++ joined (parts.map unescape) := by
  induction parts generalizing str with
  | nil => simp
  | cons part parts ih =>
    rw [joined_cons, unescape_append_cons (by decide) rfl, ih]
    rfl

theorem unescape_joined (parts : List Datum) :
    unescape (joined parts) = joined (parts.map unescape) := unescape_append_joined [] parts

theorem escapeNotIn_joined (parts : List Datum) : escapeNotIn pathCharset (joined parts) =
    joined (parts.map (escapeNotIn pathCharset)) := by
  induction parts with
  | nil => rfl
  | cons part parts ih =>
    rw [joined_cons, escapeNotIn_cons, if_pos (by decide), escapeNotIn_append, ih]
    rfl

/-! ### Searching for a part -/

section SearchPart

variable {name : Datum} {pos : ℕ}

/-- The first part is found when it is the name and another one follows. -/
theorem findSubstr_joined_cons (hname : 47 ∉ name) (hpart : 47 ∉ part)
    (hrest : ∀ c, rest.head? = some c → c ≠ 47 ∧ c ∉ name) :
    findSubstr (47 :: (name ++ [47])) (joined (part :: parts) ++ rest) =
      if part = name ∧ parts ≠ [] then some 0
      else (findSubstr (47 :: (name ++ [47])) (joined parts ++ rest)).map
        (· + (part.length + 1)) := by
  have hiff : 47 :: (name ++ [47]) <+: 47 :: (part ++ (joined parts ++ rest)) ↔
      part = name ∧ parts ≠ [] := by
    rw [List.cons_prefix_cons, and_iff_right rfl]
    constructor
    · rintro ⟨tail, htail⟩
      rw [List.append_assoc, List.singleton_append] at htail
      rcases List.append_eq_append_iff.1 htail with ⟨more, hpart', hmore⟩ | ⟨more, hname', hmore⟩
      · cases more with
        | nil =>
          rw [List.append_nil] at hpart'
          refine ⟨hpart', ?_⟩
          rintro rfl
          exact (hrest 47 (congrArg List.head? hmore.symm)).1 rfl
        | cons c more =>
          obtain ⟨rfl, -⟩ := List.cons.inj hmore
          exact absurd (hpart' ▸ List.mem_append_right _ (List.mem_cons_self ..)) hpart
      · cases more with
        | nil =>
          rw [List.append_nil] at hname'
          refine ⟨hname'.symm, ?_⟩
          rintro rfl
          exact (hrest 47 (congrArg List.head? hmore)).1 rfl
        | cons c more =>
          have hmem : c ∈ name := hname' ▸ List.mem_append_right _ (List.mem_cons_self ..)
          rcases head?_joined (congrArg List.head? hmore) with rfl | hc
          · exact absurd hmem hname
          · exact absurd hmem (hrest c hc).2
    · rintro ⟨rfl, hparts⟩
      obtain ⟨next, parts, rfl⟩ := List.exists_cons_of_ne_nil hparts
      refine ⟨next ++ (joined parts ++ rest), ?_⟩
      simp
  rw [joined_cons, List.cons_append, List.append_assoc, findSubstr]
  refine if_congr hiff rfl ?_
  rw [findSubstr_append_of_notMem hpart, Option.map_map]
  rfl

/-- **The first part which is the name**, with another one behind it. -/
theorem findSubstr_joined (hname : 47 ∉ name) (hpart : ∀ part ∈ parts, 47 ∉ part ∧ part ≠ name)
    (hne : parts' ≠ [])
    (hrest : ∀ c, rest.head? = some c → c ≠ 47 ∧ c ∉ name) :
    findSubstr (47 :: (name ++ [47])) (joined (parts ++ name :: parts') ++ rest) =
      some (joined parts).length := by
  induction parts with
  | nil =>
    rw [List.nil_append, findSubstr_joined_cons hname hname hrest, if_pos ⟨rfl, hne⟩]
    rfl
  | cons part parts ih =>
    have hfirst := hpart part (List.mem_cons_self ..)
    rw [List.cons_append, findSubstr_joined_cons hname hfirst.1 hrest,
      if_neg fun hall => hfirst.2 hall.1, ih fun p hp => hpart p (List.mem_cons_of_mem _ hp)]
    simp only [Option.map_some, joined_cons, List.length_cons, List.length_append]
    congr 1
    omega

/-- Where it is found: at such a part, or behind them all. -/
theorem of_findSubstr_joined (hname : 47 ∉ name) (hpart : ∀ part ∈ parts, 47 ∉ part)
    (hrest : ∀ c, rest.head? = some c → c ≠ 47 ∧ c ∉ name)
    (h : findSubstr (47 :: (name ++ [47])) (joined parts ++ rest) = some pos) :
    (∃ before after, parts = before ++ name :: after ∧ after ≠ [] ∧ name ∉ before ∧
      pos = (joined before).length) ∨
      ∃ n, findSubstr (47 :: (name ++ [47])) rest = some n ∧ pos = (joined parts).length + n ∧
        name ∉ parts.dropLast := by
  induction parts generalizing pos with
  | nil => exact .inr ⟨pos, h, (Nat.zero_add pos).symm, List.not_mem_nil⟩
  | cons part parts ih =>
    rw [findSubstr_joined_cons hname (hpart part (List.mem_cons_self ..)) hrest] at h
    split_ifs at h with hall
    · obtain ⟨rfl, hne⟩ := hall
      exact .inl ⟨[], parts, rfl, hne, List.not_mem_nil, (Option.some.inj h).symm⟩
    · obtain ⟨n, hn, rfl⟩ := Option.map_eq_some_iff.1 h
      rcases ih (fun p hp => hpart p (List.mem_cons_of_mem _ hp)) hn with
        ⟨before, after, rfl, hne, hbefore, rfl⟩ | ⟨n, hfind, rfl, hlast⟩
      · refine .inl ⟨part :: before, after, rfl, hne, ?_, ?_⟩
        · intro hmem
          rcases List.mem_cons.1 hmem with rfl | hmem
          · exact hall ⟨rfl, by simp⟩
          · exact hbefore hmem
        · simp only [joined_cons, List.length_cons, List.length_append]
          omega
      · refine .inr ⟨n, hfind, ?_, ?_⟩
        · simp only [joined_cons, List.length_cons, List.length_append]
          omega
        · cases parts with
          | nil => exact List.not_mem_nil
          | cons next parts =>
            rw [List.dropLast_cons_of_ne_nil (List.cons_ne_nil _ _)]
            intro hmem
            rcases List.mem_cons.1 hmem with rfl | hmem
            · exact hall ⟨rfl, List.cons_ne_nil _ _⟩
            · exact hlast hmem

end SearchPart

/-! ### Paths from the root -/

namespace FilePath

/-- The path of a string which begins with a separator: what its names lead to. -/
theorem ofString_sepa (str : Datum) : (ofString (47 :: str)).drvletter = [] ∧
    (ofString (47 :: str)).name_db = [] :: (walkOf (splitSepa str)).down := by
  have hsplit : splitSepa (47 :: str) = [] :: splitSepa str := splitSepa_append_cons [] str rfl
  have hdrv : NoDrvletter (47 :: str) := by
    intro name hname
    rw [hsplit] at hname
    obtain rfl := Option.some.inj hname
    exact List.not_mem_nil
  obtain ⟨hdrvletter, hnames⟩ := ofString_eq (List.cons_ne_nil 47 str) hdrv
  refine ⟨hdrvletter, ?_⟩
  rw [hnames, normalize_eq, isRooted_of_beginsAtRoot rfl, hsplit, walkOf_cons, stepOf_nil, one_mul]
  rfl

theorem ofString_joined (hne : parts ≠ []) : (ofString (joined parts)).drvletter = [] ∧
    (ofString (joined parts)).name_db = [] :: (walkOf (parts.flatMap splitSepa)).down := by
  obtain ⟨part, parts, rfl⟩ := List.exists_cons_of_ne_nil hne
  obtain ⟨hdrv, hnames⟩ := ofString_sepa (part ++ joined parts)
  rw [splitSepa_append_joined] at hnames
  exact ⟨hdrv, hnames⟩

/-- The parts of the string of a path from the root. -/
def nameParts (names : List Datum) : List Datum := if names = [] then [[]] else names

theorem toString_eq_joined {p : FilePath} (hdrv : p.drvletter = []) {names : List Datum}
    (hnames : p.name_db = [] :: names) : p.toString = joined (nameParts names) := by
  have hjoin : ∀ (name : Datum) (names : List Datum),
      joinNames (name :: names) = name ++ joined names := by
    intro name names
    induction names generalizing name with
    | nil => exact (List.append_nil name).symm
    | cons next names ih =>
      show name ++ 47 :: joinNames (next :: names) = _
      rw [ih, joined_cons]
  rw [toString, drvString, if_pos hdrv, List.nil_append, namesString, hnames, hjoin, nameParts]
  cases names with
  | nil => rfl
  | cons name names =>
    rw [if_neg (by simp), if_neg (List.cons_ne_nil _ _)]
    rfl

end FilePath

/-! ### The path of a uri -/

namespace HttpUri

/-- **The path of a string of parts**, whose names are those the parts lead to. -/
theorem parsePath_joined (parts : List Datum) (rest : Datum)
    (hparts : ∀ part ∈ parts, ∀ c ∈ part, isPathEnd c = false)
    (hrest : ∀ c, rest.head? = some c → isPathEnd c = true) :
    (parsePath (joined parts ++ rest)).2 = rest ∧
      (parsePath (joined parts ++ rest)).1.drvletter = [] ∧
        (parsePath (joined parts ++ rest)).1.name_db =
          [] :: (walkOf ((parts.map unescape).flatMap splitSepa)).down := by
  rw [parsePath]
  split_ifs with hhead
  · have hall : ∀ c ∈ joined parts, (!isPathEnd c) = true := by
      intro c hc
      rcases eq_or_exists_of_mem_joined hc with rfl | ⟨part, hpart, hc⟩
      · rfl
      · rw [hparts part hpart c hc]
        rfl
    have hend : ∀ c, rest.head? = some c → (!isPathEnd c) = false := fun c hc => by
      rw [hrest c hc]
      rfl
    have hne : parts.map unescape ≠ [] := by
      rw [Ne, List.map_eq_nil_iff]
      rintro rfl
      exact absurd (hrest 47 hhead) (by decide)
    rw [takeWhile_append_of_head? hall hend, dropWhile_append_of_head? hall hend, unescape_joined]
    exact ⟨rfl, FilePath.ofString_joined hne⟩
  · cases parts with
    | nil => exact ⟨rfl, FilePath.ofString_sepa []⟩
    | cons part parts => exact absurd rfl hhead

end HttpUri

end Neoip
