/-
Neoip/FilePath.lean

File paths: `file_path_t`.

A path is a drive letter and a list of names, which `normalize` puts in a
normal form: no placeholder `.`, no empty name but the first one, which makes
the path absolute, and no name followed by the parent `..` where this can be
reduced.  A `FilePath` carries its normal form as a field, and that no name
holds a separator.

Main results: `normalize` is idempotent (`normalize_normalize`), and a path is
read back from its string unless its first name holds a colon and there is no
drive letter (`FilePath.ofString_toString`, `FilePath.name_db_ofString_iff`).
-/
import Mathlib.Tactic.Common
import Neoip.Bitfield

namespace Neoip

/-! ### Normal form -/

/-- `FS_DIR_PLACEHOLDER`. -/
def dirPlaceholder : Datum := [46]

/-- `FS_DIR_PARENT`. -/
def dirParent : Datum := [46, 46]

/-- Erase the first name which is followed by the parent, and that parent. -/
def eraseParent : List Datum → Option (List Datum)
  | name :: next :: name_db =>
    if name ≠ [] ∧ name ≠ dirParent ∧ next = dirParent then some name_db
    else (eraseParent (next :: name_db)).map (name :: ·)
  | _ => none

/-- The loop over `eraseParent`. -/
def eraseParents : ℕ → List Datum → List Datum
  | 0, name_db => name_db
  | fuel + 1, name_db =>
    match eraseParent name_db with
    | none => name_db
    | some name_db => eraseParents fuel name_db

/-- The parents at the head of an absolute path. -/
def eraseHeadParents : List Datum → List Datum
  | [] :: name_db => [] :: name_db.dropWhile fun name => name = dirParent
  | name_db => name_db

/-- The empty names but the first one: redundant separators. -/
def eraseSepas : List Datum → List Datum
  | [] => []
  | name :: name_db => name :: name_db.filter fun name => name ≠ []

/-- The erasures of `normalize`. -/
def eraseNames (name_db : List Datum) : List Datum :=
  let name_db := eraseSepas (name_db.filter fun name => name ≠ dirPlaceholder)
  eraseHeadParents (eraseParents name_db.length name_db)

def normalize (name_db : List Datum) : List Datum :=
  if eraseNames name_db = [] then [dirPlaceholder] else eraseNames name_db

/-- What `normalize` leaves alone. -/
structure Normal (name_db : List Datum) : Prop where
  no_placeholder : dirPlaceholder ∉ name_db
  no_empty : [] ∉ name_db.tail
  no_parent : eraseParent name_db = none
  no_head_parent : ∀ rest, name_db = [] :: rest → rest.head? ≠ some dirParent

section Normalize

variable {name : Datum} {name_db name_db' : List Datum}

theorem eraseParent_sublist (h : eraseParent name_db = some name_db') :
    name_db'.Sublist name_db ∧ name_db'.tail.Sublist name_db.tail ∧
      name_db'.length < name_db.length := by
  fun_induction eraseParent name_db generalizing name_db' with
  | case1 name next rest hpair =>
    obtain rfl := Option.some.inj h
    refine ⟨(List.sublist_cons_self ..).trans (List.sublist_cons_self ..), ?_, ?_⟩
    · exact (List.tail_sublist _).trans (List.sublist_cons_self ..)
    · simp only [List.length_cons]
      omega
  | case2 name next rest hpair ih =>
    obtain ⟨l, hl, rfl⟩ := Option.map_eq_some_iff.1 h
    obtain ⟨hsub, -, hlen⟩ := ih hl
    refine ⟨hsub.cons_cons name, hsub, ?_⟩
    rw [List.length_cons, List.length_cons]
    omega
  | case3 => cases h

theorem eraseParent_of_cons (h : eraseParent (name :: name_db) = none) :
    eraseParent name_db = none := by
  cases name_db with
  | nil => rfl
  | cons next rest =>
    rw [eraseParent] at h
    split_ifs at h with hpair
    exact Option.map_eq_none_iff.1 h

theorem eraseParent_nil_cons (h : eraseParent name_db = none) :
    eraseParent ([] :: name_db) = none := by
  cases name_db with
  | nil => rfl
  | cons next rest => rw [eraseParent, if_neg (by simp), h, Option.map_none]

theorem eraseParent_dropWhile (p : Datum → Bool) (h : eraseParent name_db = none) :
    eraseParent (name_db.dropWhile p) = none := by
  induction name_db with
  | nil => rfl
  | cons name name_db ih =>
    rw [List.dropWhile_cons]
    split_ifs
    · exact ih (eraseParent_of_cons h)
    · exact h

theorem eraseParents_spec {fuel : ℕ} (hfuel : name_db.length ≤ fuel) :
    (eraseParents fuel name_db).Sublist name_db ∧
      (eraseParents fuel name_db).tail.Sublist name_db.tail ∧
        eraseParent (eraseParents fuel name_db) = none := by
  induction fuel generalizing name_db with
  | zero =>
    obtain rfl : name_db = [] := List.eq_nil_of_length_eq_zero (by omega)
    exact ⟨List.Sublist.refl _, List.Sublist.refl _, rfl⟩
  | succ fuel ih =>
    rw [eraseParents]
    rcases h : eraseParent name_db with _ | l
    · exact ⟨List.Sublist.refl _, List.Sublist.refl _, h⟩
    · obtain ⟨hsub, htail, hlen⟩ := eraseParent_sublist h
      obtain ⟨hsub', htail', hnone⟩ := @ih l (by omega)
      exact ⟨hsub'.trans hsub, htail'.trans htail, hnone⟩

theorem eraseParents_of_none (h : eraseParent name_db = none) (fuel : ℕ) :
    eraseParents fuel name_db = name_db := by
  cases fuel with
  | zero => rfl
  | succ fuel => rw [eraseParents, h]

theorem eraseHeadParents_sublist (name_db : List Datum) :
    (eraseHeadParents name_db).Sublist name_db ∧
      (eraseHeadParents name_db).tail.Sublist name_db.tail := by
  unfold eraseHeadParents
  split
  · exact ⟨(List.dropWhile_sublist _).cons_cons [], List.dropWhile_sublist _⟩
  · exact ⟨List.Sublist.refl _, List.Sublist.refl _⟩

theorem eraseSepas_sublist (name_db : List Datum) : (eraseSepas name_db).Sublist name_db := by
  cases name_db with
  | nil => exact List.Sublist.refl _
  | cons name name_db => exact List.filter_sublist.cons_cons name

theorem eraseNames_sublist (name_db : List Datum) : (eraseNames name_db).Sublist name_db :=
  (eraseHeadParents_sublist _).1.trans <| (eraseParents_spec le_rfl).1.trans <|
    (eraseSepas_sublist _).trans List.filter_sublist

theorem nil_notMem_tail_eraseSepas (name_db : List Datum) : [] ∉ (eraseSepas name_db).tail := by
  cases name_db with
  | nil => exact List.not_mem_nil
  | cons name name_db =>
    intro h
    exact absurd (List.of_mem_filter h) (by simp)

/-- The erasures reach the normal form. -/
theorem normal_eraseNames (name_db : List Datum) : Normal (eraseNames name_db) := by
  set l := eraseSepas (name_db.filter fun name => name ≠ dirPlaceholder) with hl
  obtain ⟨hsub, htail, hnone⟩ := eraseParents_spec le_rfl
  have hsub' := (eraseHeadParents_sublist (eraseParents l.length l))
  have heq : eraseNames name_db = eraseHeadParents (eraseParents l.length l) := rfl
  rw [heq]
  refine ⟨?_, ?_, ?_, ?_⟩
  · intro hmem
    have := (eraseSepas_sublist _).subset (hsub.subset (hsub'.1.subset hmem))
    exact absurd (List.of_mem_filter this) (by simp)
  · exact fun hmem => nil_notMem_tail_eraseSepas _ (htail.subset (hsub'.2.subset hmem))
  · generalize eraseParents l.length l = names at hnone
    unfold eraseHeadParents
    split
    · exact eraseParent_nil_cons (eraseParent_dropWhile _ (eraseParent_of_cons hnone))
    · exact hnone
  · intro rest hrest hhead
    generalize eraseParents l.length l = names at hrest
    unfold eraseHeadParents at hrest
    split at hrest
    · obtain ⟨-, rfl⟩ := List.cons.inj hrest
      have := List.head?_dropWhile_not (fun name : Datum => decide (name = dirParent)) ‹List Datum›
      rw [hhead] at this
      simp at this
    · next hnot => exact hnot rest hrest

theorem normalize_of_normal (h : Normal name_db) (hne : name_db ≠ []) :
    normalize name_db = name_db := by
  have hfilter : (name_db.filter fun name => name ≠ dirPlaceholder) = name_db := by
    refine List.filter_eq_self.2 fun name hname => ?_
    simp only [decide_eq_true_eq]
    rintro rfl
    exact h.no_placeholder hname
  have hsepas : eraseSepas name_db = name_db := by
    cases name_db with
    | nil => rfl
    | cons name rest =>
      rw [eraseSepas]
      congr 1
      refine List.filter_eq_self.2 fun name hname => ?_
      simp only [decide_eq_true_eq]
      rintro rfl
      exact h.no_empty hname
  have hhead : eraseHeadParents name_db = name_db := by
    unfold eraseHeadParents
    split
    · next rest =>
        have hhead := h.no_head_parent rest rfl
        congr 1
        cases rest with
        | nil => rfl
        | cons name rest =>
          rw [List.dropWhile_cons_of_neg]
          simpa using hhead
    · rfl
  have hnames : eraseNames name_db = name_db := by
    rw [eraseNames, hfilter, hsepas, eraseParents_of_none h.no_parent, hhead]
  rw [normalize, hnames, if_neg hne]

/-- Names which `normalize` leaves are in the normal form, or the placeholder alone. -/
theorem normal_of_normalize (h : normalize name_db = name_db) :
    name_db = [dirPlaceholder] ∨ Normal name_db := by
  by_cases hnil : eraseNames name_db = []
  · exact .inl (h.symm.trans (if_pos hnil))
  · have heq : normalize name_db = eraseNames name_db := if_neg hnil
    refine .inr ?_
    rw [← h, heq]
    exact normal_eraseNames name_db

theorem eraseParent_of_append (h : eraseParent (name_db ++ name_db') = none) :
    eraseParent name_db = none := by
  fun_induction eraseParent name_db with
  | case1 name next rest hpair =>
    rw [List.cons_append, List.cons_append, eraseParent, if_pos hpair] at h
    cases h
  | case2 name next rest hpair ih =>
    rw [List.cons_append, List.cons_append, eraseParent, if_neg hpair,
      Option.map_eq_none_iff] at h
    rw [ih h, Option.map_none]
  | case3 => rfl

theorem Normal.of_append (h : Normal (name_db ++ name_db')) : Normal name_db where
  no_placeholder hmem := h.no_placeholder (List.mem_append_left _ hmem)
  no_empty hmem := by
    cases name_db with
    | nil => cases hmem
    | cons first rest => exact h.no_empty (List.mem_append_left _ hmem)
  no_parent := eraseParent_of_append h.no_parent
  no_head_parent rest hrest hhead := by
    subst hrest
    refine h.no_head_parent (rest ++ name_db') rfl ?_
    rw [List.head?_append, hhead]
    rfl

/-- Only a parent is followed by a parent. -/
theorem Normal.eq_parent (h : Normal (name_db ++ name :: dirParent :: name_db')) :
    name = dirParent := by
  by_contra hne
  have hnil : name ≠ [] := by
    rintro rfl
    cases name_db with
    | nil => exact h.no_head_parent _ rfl rfl
    | cons first rest => exact h.no_empty (List.mem_append_right _ (List.mem_cons_self ..))
  have hnone := h.no_parent
  clear h
  induction name_db with
  | nil =>
    rw [List.nil_append, eraseParent, if_pos ⟨hnil, hne, rfl⟩] at hnone
    cases hnone
  | cons first rest ih => exact ih (eraseParent_of_cons hnone)

theorem normalize_ne_nil (name_db : List Datum) : normalize name_db ≠ [] := by
  unfold normalize
  split_ifs with h
  · exact List.cons_ne_nil _ _
  · exact h

/-- **The normal form is reached at once.** -/
theorem normalize_normalize (name_db : List Datum) :
    normalize (normalize name_db) = normalize name_db := by
  by_cases h : eraseNames name_db = []
  · have heq : normalize name_db = [dirPlaceholder] := if_pos h
    rw [heq]
    rfl
  · have heq : normalize name_db = eraseNames name_db := if_neg h
    rw [heq]
    exact normalize_of_normal (normal_eraseNames name_db) h

theorem normalize_cases (name_db : List Datum) :
    normalize name_db = [dirPlaceholder] ∨ (normalize name_db).Sublist name_db := by
  unfold normalize
  split_ifs
  · exact .inl rfl
  · exact .inr (eraseNames_sublist name_db)

end Normalize

/-! ### Paths -/

/-- The separators of `ctor_from_str`. -/
def isSepa (c : UInt8) : Bool := c = 47 || c = 92

/-- No name holds a separator. -/
def NoSepa (name_db : List Datum) : Prop := ∀ name ∈ name_db, ∀ c ∈ name, isSepa c = false

/-- `file_path_t`.  It is null when it has neither a drive letter nor a name. -/
@[ext]
structure FilePath where
  drvletter : Datum
  name_db : List Datum
  null_or_normal : (drvletter = [] ∧ name_db = []) ∨ normalize name_db = name_db
  no_sepa : NoSepa name_db
  no_sepa_drvletter : ∀ c ∈ drvletter, isSepa c = false ∧ c ≠ 58

theorem NoSepa.normalize {name_db : List Datum} (h : NoSepa name_db) :
    NoSepa (normalize name_db) := by
  intro name hname
  rcases normalize_cases name_db with heq | hsub
  · rw [heq, List.mem_singleton] at hname
    subst hname
    exact List.forall_mem_singleton.2 rfl
  · exact h name (hsub.subset hname)

theorem NoSepa.append {name_db name_db' : List Datum} (h : NoSepa name_db) (h' : NoSepa name_db') :
    NoSepa (name_db ++ name_db') := fun name hname =>
  (List.mem_append.1 hname).elim (h name) (h' name)

theorem NoSepa.take {name_db : List Datum} (h : NoSepa name_db) (n : ℕ) :
    NoSepa (name_db.take n) := fun name hname => h name (List.mem_of_mem_take hname)

/-- `string_t::split`. -/
def splitSepa (pathname : Datum) : List Datum := pathname.splitOnP isSepa

/-- What is cut at the separators holds none. -/
theorem of_mem_splitOnP {α : Type*} {p : α → Bool} {xs part : List α}
    (h : part ∈ xs.splitOnP p) : ∀ c ∈ part, p c = false := by
  induction xs generalizing part with
  | nil =>
    rw [List.splitOnP_nil] at h
    rw [List.mem_singleton.1 h]
    exact nofun
  | cons c xs ih =>
    rw [List.splitOnP_cons_eq_if_modifyHead] at h
    split_ifs at h with hc
    · rcases List.mem_cons.1 h with rfl | h
      · exact nofun
      · exact ih h
    · rcases hsplit : xs.splitOnP p with _ | ⟨first, rest⟩
      · exact absurd hsplit (List.splitOnP_ne_nil p xs)
      · rw [hsplit] at h ih
        rw [List.modifyHead_cons] at h
        rcases List.mem_cons.1 h with rfl | h
        · intro c' hc'
          rcases List.mem_cons.1 hc' with rfl | hc'
          · simpa using hc
          · exact ih (List.mem_cons_self ..) c' hc'
        · exact ih (List.mem_cons_of_mem _ h)

theorem noSepa_splitSepa (pathname : Datum) : NoSepa (splitSepa pathname) :=
  fun _ hname => of_mem_splitOnP hname

/-- The part of `ctor_from_str` which takes the drive letter off the first name. -/
def splitDrvletter : List Datum → Datum × List Datum
  | [] => ([], [])
  | name :: name_db =>
    if 58 ∈ name then
      (name.takeWhile (· ≠ 58), (name.dropWhile (· ≠ 58)).tail :: name_db)
    else ([], name :: name_db)

theorem noSepa_splitDrvletter {name_db : List Datum} (h : NoSepa name_db) :
    NoSepa (splitDrvletter name_db).2 ∧
      ∀ c ∈ (splitDrvletter name_db).1, isSepa c = false ∧ c ≠ 58 := by
  cases name_db with
  | nil => exact ⟨nofun, nofun⟩
  | cons first name_db =>
    rw [splitDrvletter]
    split_ifs
    · have hfirst := h first (List.mem_cons_self ..)
      constructor
      · intro name hname
        rcases List.mem_cons.1 hname with rfl | hname
        · intro c hc
          exact hfirst c ((List.dropWhile_sublist _).subset (List.mem_of_mem_tail hc))
        · exact h name (List.mem_cons_of_mem _ hname)
      · intro c hc
        refine ⟨hfirst c ((List.takeWhile_sublist _).subset hc), ?_⟩
        simpa using List.all_eq_true.1 (List.all_takeWhile (p := fun c => decide (c ≠ 58))) c hc
    · exact ⟨h, nofun⟩

namespace FilePath

/-- The path made from names: they are put in normal form. -/
def ofNames (drvletter : Datum) (name_db : List Datum) (no_sepa : NoSepa name_db)
    (no_sepa_drvletter : ∀ c ∈ drvletter, isSepa c = false ∧ c ≠ 58) : FilePath where
  drvletter
  name_db := normalize name_db
  null_or_normal := .inr (normalize_normalize name_db)
  no_sepa := no_sepa.normalize
  no_sepa_drvletter

def null : FilePath := ⟨[], [], .inl ⟨rfl, rfl⟩, nofun, nofun⟩

def isNull (p : FilePath) : Bool := p.drvletter = [] && p.name_db = []

/-- The constructor from a string. -/
def ofString (pathname : Datum) : FilePath :=
  if pathname = [] then null
  else
    ofNames (splitDrvletter (splitSepa pathname)).1 (splitDrvletter (splitSepa pathname)).2
      (noSepa_splitDrvletter (noSepa_splitSepa pathname)).1
      (noSepa_splitDrvletter (noSepa_splitSepa pathname)).2

/-- `operator /=`. -/
def append (p other : FilePath) : FilePath :=
  if p.isNull then other
  else ofNames p.drvletter (p.name_db ++ other.name_db) (p.no_sepa.append other.no_sepa)
    p.no_sepa_drvletter

def isAbsolute (p : FilePath) : Bool := p.name_db.head? = some []

/-- `size`: a relative path counts the placeholder, which its names do not have. -/
def size (p : FilePath) : ℕ :=
  if p.isAbsolute then p.name_db.length
  else if p.name_db.head? = some dirPlaceholder then p.name_db.length
  else p.name_db.length + 1

/-- `operator []`; none when the index is out of the vector. -/
def get (p : FilePath) (idx : ℕ) : Option FilePath :=
  if p.isAbsolute then
    if idx = 0 then some (ofString [47]) else (p.name_db[idx]?).map ofString
  else if idx = 0 then some (ofString dirPlaceholder)
  else
    let idx := if p.name_db.head? = some dirPlaceholder then idx else idx - 1
    (p.name_db[idx]?).map ofString

/-- `subpath`, with `nb_sub` names: an absolute path has its first name besides. -/
def subpath (p : FilePath) (nb_sub : ℕ) : Option FilePath :=
  if nb_sub < p.size then
    let nb_sub := if p.isAbsolute then nb_sub + 1 else nb_sub
    some (ofNames p.drvletter (p.name_db.take nb_sub) (p.no_sepa.take nb_sub) p.no_sepa_drvletter)
  else none

/-- `dirname`: a path of a single name is returned as is. -/
def dirname (p : FilePath) : Option FilePath :=
  if p.isNull then none
  else if p.name_db.length ≤ 1 then some p
  else if p.isAbsolute then p.subpath (p.name_db.length - 2)
  else p.subpath (p.name_db.length - 1)

/-- `basename`: the last name, which the constructor from a string makes a path. -/
def basename (p : FilePath) : Option FilePath := p.name_db.getLast?.map ofString

theorem size_pos (p : FilePath) : 0 < p.size := by
  rw [size]
  split_ifs with habs hhead
  · refine List.length_pos_iff.2 fun hnil => ?_
    rw [isAbsolute, hnil] at habs
    cases habs
  · refine List.length_pos_iff.2 fun hnil => ?_
    rw [hnil] at hhead
    cases hhead
  · exact Nat.succ_pos _

theorem subpath_of_lt {p : FilePath} {nb_sub : ℕ} (h : nb_sub < p.size) :
    ∃ q, p.subpath nb_sub = some q ∧ q.drvletter = p.drvletter :=
  ⟨_, if_pos h, rfl⟩

theorem dirname_of_null {p : FilePath} (h : p.isNull = true) : p.dirname = none := if_pos h

theorem dirname_of_not_null {p : FilePath} (h : p.isNull = false) :
    ∃ dir, p.dirname = some dir ∧ dir.drvletter = p.drvletter := by
  rw [dirname, h, if_neg Bool.false_ne_true]
  split_ifs with hlen habs
  · exact ⟨p, rfl, rfl⟩
  · refine subpath_of_lt ?_
    rw [size, if_pos habs]
    omega
  · refine subpath_of_lt ?_
    rw [size, if_neg habs]
    split_ifs <;> omega

/-- The names with a separator between them. -/
def joinNames : List Datum → Datum
  | [] => []
  | [name] => name
  | name :: name_db => name ++ 47 :: joinNames name_db

/-- The names of `to_string_sepa`; the root has its separator. -/
def namesString (p : FilePath) : Datum :=
  if p.name_db = [[]] then [47] else joinNames p.name_db

def drvString (p : FilePath) : Datum := if p.drvletter = [] then [] else p.drvletter ++ [58]

/-- `to_string`. -/
def toString (p : FilePath) : Datum := p.drvString ++ p.namesString

/-! ### Paths are read back -/

theorem splitSepa_joinNames {names : List Datum} (h : NoSepa names) (hne : names ≠ []) :
    splitSepa (joinNames names) = names := by
  induction names with
  | nil => exact absurd rfl hne
  | cons name names ih =>
    have hname := h name (List.mem_cons_self ..)
    cases names with
    | nil => exact List.splitOnP_eq_singleton hname
    | cons next names =>
      have ih := ih (fun x hx => h x (List.mem_cons_of_mem name hx)) (List.cons_ne_nil _ _)
      rw [joinNames, splitSepa, List.splitOnP_append_cons_of_forall_mem hname 47 rfl]
      · rw [splitSepa] at ih
        rw [ih]
      · exact List.cons_ne_nil _ _

theorem joinNames_append (first name : Datum) (names : List Datum) :
    first ++ joinNames (name :: names) = joinNames ((first ++ name) :: names) := by
  cases names with
  | nil => rfl
  | cons next names => simp only [joinNames, List.append_assoc]

variable {p : FilePath}

/-- The names of the string: those of the path, the root with an empty one more. -/
theorem exists_names (h : p.name_db ≠ []) : ∃ name names,
    p.namesString = joinNames (name :: names) ∧ normalize (name :: names) = p.name_db ∧
      NoSepa (name :: names) ∧ p.name_db.head? = some name ∧ name :: names ≠ [[]] ∧
        (p.name_db ≠ [[]] → p.name_db = name :: names) := by
  have hnormal : normalize p.name_db = p.name_db :=
    p.null_or_normal.resolve_left fun hnull => h hnull.2
  by_cases hroot : p.name_db = [[]]
  · refine ⟨[], [[]], if_pos hroot, ?_, ?_, ?_, by simp, fun hne => absurd hroot hne⟩
    · rw [hroot]
      rfl
    · intro name hname
      obtain rfl : name = [] := by simpa using hname
      exact nofun
    · rw [hroot]
      rfl
  · obtain ⟨name, names, hnames⟩ := List.exists_cons_of_ne_nil h
    refine ⟨name, names, ?_, ?_, ?_, ?_, ?_, fun _ => hnames⟩
    · rw [namesString, if_neg hroot, hnames]
    · rw [← hnames, hnormal]
    · exact hnames ▸ p.no_sepa
    · rw [hnames]
      rfl
    · exact hnames ▸ hroot

theorem isSepa_drvString {c : UInt8} (hc : c ∈ p.drvString) : isSepa c = false := by
  unfold drvString at hc
  split_ifs at hc
  · exact absurd hc List.not_mem_nil
  · rcases List.mem_append.1 hc with hc | hc
    · exact (p.no_sepa_drvletter c hc).1
    · rw [List.mem_singleton.1 hc]
      rfl

/-- The string is split where it was joined. -/
theorem ofString_toString_eq {name : Datum} {names : List Datum}
    (hstr : p.namesString = joinNames (name :: names)) (hsepa : NoSepa (name :: names))
    (hne : name :: names ≠ [[]]) :
    (ofString p.toString).drvletter = (splitDrvletter ((p.drvString ++ name) :: names)).1 ∧
      (ofString p.toString).name_db =
        normalize (splitDrvletter ((p.drvString ++ name) :: names)).2 := by
  have hjoin : p.toString = joinNames ((p.drvString ++ name) :: names) := by
    rw [toString, hstr, joinNames_append]
  have hsepa' : NoSepa ((p.drvString ++ name) :: names) := by
    intro x hx c hc
    rcases List.mem_cons.1 hx with rfl | hx
    · rcases List.mem_append.1 hc with hc | hc
      · exact isSepa_drvString hc
      · exact hsepa name (List.mem_cons_self ..) c hc
    · exact hsepa x (List.mem_cons_of_mem _ hx) c hc
  have hsplit : splitSepa p.toString = (p.drvString ++ name) :: names := by
    rw [hjoin]
    exact splitSepa_joinNames hsepa' (List.cons_ne_nil _ _)
  have hstring : p.toString ≠ [] := by
    intro hnil
    rw [hjoin] at hnil
    cases names with
    | nil =>
      have hname : name = [] := (List.append_eq_nil_iff.1 hnil).2
      exact hne (by rw [hname])
    | cons next names => exact absurd hnil (by simp [joinNames])
  simp only [ofString, if_neg hstring, ofNames, hsplit, and_self]

/-- The first name has no colon, unless there is a drive letter. -/
def PrintsBack (p : FilePath) : Prop :=
  p.drvletter ≠ [] ∨ ∀ name, p.name_db.head? = some name → 58 ∉ name

/-- **Round trip of the string.** -/
theorem ofString_toString (h : p.PrintsBack) : ofString p.toString = p := by
  by_cases hnull : p.name_db = []
  · have hdrv : p.drvletter = [] := by
      rcases p.null_or_normal with hn | hn
      · exact hn.1
      · exact absurd (hn.trans hnull) (normalize_ne_nil _)
    have hstr : p.toString = [] := by
      simp only [toString, drvString, namesString, hdrv, hnull, if_true]
      rfl
    rw [hstr]
    exact FilePath.ext hdrv.symm hnull.symm
  obtain ⟨name, names, hstr, hnormal, hsepa, hhead, hne, -⟩ := exists_names hnull
  obtain ⟨hdrv, hnames⟩ := ofString_toString_eq hstr hsepa hne
  have hsplit : splitDrvletter ((p.drvString ++ name) :: names) = (p.drvletter, name :: names) := by
    by_cases hempty : p.drvletter = []
    · have hcolon := h.resolve_left (not_not.2 hempty) name hhead
      rw [drvString, if_pos hempty, List.nil_append, splitDrvletter, if_neg hcolon, hempty]
    · have hall : ∀ c ∈ p.drvletter, decide (c ≠ 58) = true := fun c hc =>
        decide_eq_true (p.no_sepa_drvletter c hc).2
      rw [drvString, if_neg hempty, splitDrvletter, if_pos (by simp), List.append_assoc,
        List.takeWhile_append_of_pos hall, List.dropWhile_append_of_pos hall]
      simp
  rw [hsplit] at hdrv hnames
  exact FilePath.ext hdrv (hnames.trans hnormal)

/-- The names are read back exactly then. -/
theorem name_db_ofString_iff : (ofString p.toString).name_db = p.name_db ↔ p.PrintsBack := by
  refine ⟨fun heq => ?_, fun h => by rw [ofString_toString h]⟩
  by_contra hcolon
  rw [PrintsBack, not_or, not_not] at hcolon
  obtain ⟨hempty, hcolon⟩ := hcolon
  push Not at hcolon
  obtain ⟨name, hhead, hcolon⟩ := hcolon
  have hnull : p.name_db ≠ [] := by
    intro hnull
    rw [hnull] at hhead
    cases hhead
  obtain ⟨name', names, hstr, -, hsepa, hhead', hne, hcons⟩ := exists_names hnull
  obtain rfl : name = name' := Option.some.inj (hhead.symm.trans hhead')
  -- the name lost its head: the erasures cannot give it back
  obtain ⟨-, hnames⟩ := ofString_toString_eq hstr hsepa hne
  rw [drvString, if_pos hempty, List.nil_append, splitDrvletter, if_pos hcolon, heq] at hnames
  have hlen : ((name.dropWhile (· ≠ 58)).tail).length < name.length := by
    have hpos := List.length_pos_of_mem hcolon
    have hle := (List.dropWhile_sublist (l := name) fun c => decide (c ≠ 58)).length_le
    rw [List.length_tail]
    omega
  rcases normalize_cases ((name.dropWhile (· ≠ 58)).tail :: names) with hdot | hsub
  · rw [← hnames] at hdot
    rw [hdot] at hhead
    obtain rfl := Option.some.inj hhead
    exact absurd hcolon (by decide)
  · have hroot : p.name_db ≠ [[]] := by
      intro hroot
      rw [hroot] at hhead
      obtain rfl := Option.some.inj hhead
      exact absurd hcolon List.not_mem_nil
    rw [← hnames, hcons hroot] at hsub
    generalize (name.dropWhile (· ≠ 58)).tail = lost at hsub hlen
    cases hsub with
    | cons _ hsub =>
      have := hsub.length_le
      rw [List.length_cons] at this
      omega
    | cons_cons _ _ => exact absurd hlen (Nat.lt_irrefl _)

end FilePath

end Neoip
