/-
Neoip/FilePathContain.lean

Which paths a path contains: `contain`.

A path contains another one when the names of the other begin with its own.  `contain`
compares as many names as `size` says, and for a relative path this is one more than
there are: where the names of the other do begin with its own, it goes on to a name
which does not exist.  The placeholder `.` has a name of its own, which no other path
begins with.

Main result: `contain_iff`, and that what `contain` answers is an order whatever the paths
(`contain_trans`, `contain_antisymm`).
-/
import Neoip.FilePathWalk

namespace Neoip

/-- The loop of `contain` over the first `n` names; none when a name which does not exist is
accessed. -/
def sameNames : ℕ → List Datum → List Datum → Option Bool
  | 0, _, _ => some true
  | n + 1, name :: name_db, other :: other_db =>
    if name ≠ other then some false else sameNames n name_db other_db
  | _ + 1, _, _ => none

section SameNames

variable {n : ℕ} {name_db other_db : List Datum}

theorem sameNames_of_length (hlen : name_db.length = n) (hle : n ≤ other_db.length) :
    sameNames n name_db other_db = some (decide (name_db <+: other_db)) := by
  induction n generalizing name_db other_db with
  | zero =>
    obtain rfl := List.eq_nil_of_length_eq_zero hlen
    rw [decide_eq_true (List.nil_prefix)]
    rfl
  | succ n ih =>
    obtain ⟨name, names, rfl⟩ := List.exists_cons_of_length_eq_add_one hlen
    cases other_db with
    | nil => exact absurd hle (Nat.not_succ_le_zero n)
    | cons other others =>
      rw [sameNames]
      split_ifs with hne
      · rw [decide_eq_false]
        rw [List.cons_prefix_cons]
        exact fun h => hne h.1
      · rw [not_not] at hne
        rw [ih (Nat.succ.inj hlen) (Nat.le_of_succ_le_succ hle), hne]
        congr 1
        rw [decide_eq_decide, List.cons_prefix_cons]
        exact (and_iff_right rfl).symm

/-- A name too much: it is asked for only where all the others are the same. -/
theorem sameNames_of_lt (hlt : name_db.length < n) (hle : name_db.length ≤ other_db.length) :
    sameNames n name_db other_db = if name_db <+: other_db then none else some false := by
  induction n generalizing name_db other_db with
  | zero => exact absurd hlt (Nat.not_lt_zero _)
  | succ n ih =>
    cases name_db with
    | nil =>
      rw [if_pos List.nil_prefix]
      rfl
    | cons name names =>
      cases other_db with
      | nil => exact absurd hle (Nat.not_succ_le_zero _)
      | cons other others =>
        rw [sameNames]
        split_ifs with hne hprefix hprefix
        · exact absurd (List.cons_prefix_cons.1 hprefix).1 hne
        · rfl
        · rw [ih (Nat.lt_of_succ_lt_succ hlt) (Nat.le_of_succ_le_succ hle),
            if_pos (List.cons_prefix_cons.1 hprefix).2]
        · rw [ih (Nat.lt_of_succ_lt_succ hlt) (Nat.le_of_succ_le_succ hle), if_neg]
          rw [not_not] at hne
          exact fun h => hprefix (List.cons_prefix_cons.2 ⟨hne, h⟩)

theorem sameNames_of_head_ne {name other : Datum} (hne : name ≠ other) (n : ℕ) :
    sameNames (n + 1) (name :: name_db) (other :: other_db) = some false := if_pos hne

end SameNames

namespace FilePath

variable {p other q : FilePath}

/-- `contain`; none when a name which does not exist is accessed. -/
def contain (p other : FilePath) : Option Bool :=
  if p.isNull || other.isNull then some false
  else if other.size < p.size then some false
  else sameNames p.size p.name_db other.name_db

/-- The other path is the path itself, or the path followed by names. -/
def Within (p other : FilePath) : Prop :=
  p.isAbsolute = other.isAbsolute ∧ p.dirNames <+: other.dirNames

instance (p other : FilePath) : Decidable (p.Within other) := inferInstanceAs (Decidable (_ ∧ _))

instance (p : FilePath) : Decidable p.IsHere := inferInstanceAs (Decidable (_ ∧ _))

/-- `contain` accesses names which exist, and says whether the other path is within this one. -/
def Exact (p other : FilePath) : Prop :=
  (p.contain other = some true ∧ p.Within other) ∨ (p.contain other = some false ∧ ¬ p.Within other)

/-- The path contains itself, and the subpaths, each of which contains the next one, lead to it. -/
structure Nested (p : FilePath) : Prop where
  refl : p.contain p = some true
  chain : ∀ i, i + 1 < p.size → ∃ sub next, p.subpath i = some sub ∧
    p.subpath (i + 1) = some next ∧ sub.contain next = some true
  last : p.subpath (p.size - 1) = some p

/-! ### The sizes -/

theorem contain_eq (hp : p.isNull = false) (hother : other.isNull = false) : p.contain other =
    if other.size < p.size then some false else sameNames p.size p.name_db other.name_db := by
  rw [contain, hp, hother]
  rfl

theorem size_of_absolute (habs : p.isAbsolute = true) : p.size = p.name_db.length := if_pos habs

theorem dirNames_of_absolute (hnull : p.isNull = false) (habs : p.isAbsolute = true) :
    p.dirNames = p.name_db := by
  rw [dirNames_eq, name_db_eq hnull, if_pos habs, habs]
  rfl

theorem name_db_of_isHere (hnull : p.isNull = false) (h : p.IsHere) :
    p.name_db = [dirPlaceholder] := by
  rw [name_db_eq hnull, h.1, h.2]
  rfl

theorem size_of_isHere (hnull : p.isNull = false) (h : p.IsHere) : p.size = 1 := by
  rw [size, if_neg (by rw [h.1]; exact Bool.false_ne_true), name_db_of_isHere hnull h]
  rfl

theorem dirNames_of_relative (hnull : p.isNull = false) (hrel : p.isAbsolute = false)
    (hwalk : p.walk ≠ 1) : p.dirNames = p.name_db := by
  rw [dirNames_eq, name_db_eq hnull, namesOf, hrel, if_neg Bool.false_ne_true,
    if_neg Bool.false_ne_true, if_neg hwalk]

/-- The names of a relative path which goes somewhere begin with one which is neither empty nor
the placeholder. -/
theorem exists_name_of_relative (hnull : p.isNull = false) (hrel : p.isAbsolute = false)
    (hwalk : p.walk ≠ 1) :
    ∃ name names, p.name_db = name :: names ∧ name ≠ [] ∧ name ≠ dirPlaceholder := by
  obtain ⟨name, names, hnames⟩ := List.exists_cons_of_ne_nil (name_db_ne_nil hnull)
  refine ⟨name, names, hnames, ?_, ?_⟩
  · rintro rfl
    rw [isAbsolute, hnames] at hrel
    cases hrel
  · rintro rfl
    have hmem : dirPlaceholder ∈ p.dirNames := by
      rw [dirNames_of_relative hnull hrel hwalk, hnames]
      exact List.mem_cons_self ..
    exact absurd (List.of_mem_filter hmem) (by simp)

theorem size_of_relative (hnull : p.isNull = false) (hrel : p.isAbsolute = false)
    (hwalk : p.walk ≠ 1) : p.size = p.name_db.length + 1 := by
  obtain ⟨name, names, hnames, -, hdot⟩ := exists_name_of_relative hnull hrel hwalk
  rw [size, hrel, if_neg Bool.false_ne_true, if_neg]
  rw [hnames]
  exact fun h => hdot (Option.some.inj h)

theorem exists_name_of_absolute (hnull : p.isNull = false) (habs : p.isAbsolute = true) :
    ∃ names, p.name_db = [] :: names := by
  rw [name_db_eq hnull, habs]
  exact ⟨_, rfl⟩

/-- The first name of a path says whether it is absolute. -/
theorem exists_name_ne_nil (hnull : p.isNull = false) (hrel : p.isAbsolute = false) :
    ∃ name names, p.name_db = name :: names ∧ name ≠ [] := by
  by_cases hwalk : p.walk = 1
  · exact ⟨_, [], name_db_of_isHere hnull ⟨hrel, hwalk⟩, by decide⟩
  · obtain ⟨name, names, hnames, hne, -⟩ := exists_name_of_relative hnull hrel hwalk
    exact ⟨name, names, hnames, hne⟩

/-! ### What `contain` answers -/

/-- An absolute path has as many names as its size. -/
theorem contain_of_absolute (hp : p.isNull = false) (hother : other.isNull = false)
    (habs : p.isAbsolute = true) : p.contain other = some (decide (p.Within other)) := by
  obtain ⟨names, hnames⟩ := exists_name_of_absolute hp habs
  rw [contain_eq hp hother, size_of_absolute habs]
  cases hotherabs : other.isAbsolute with
  | true =>
    have hwithin : p.Within other ↔ p.name_db <+: other.name_db := by
      rw [Within, habs, hotherabs, dirNames_of_absolute hp habs,
        dirNames_of_absolute hother hotherabs]
      exact and_iff_right rfl
    rw [size_of_absolute hotherabs]
    split_ifs with hlt
    · rw [decide_eq_false]
      exact fun h => Nat.not_le.2 hlt (hwithin.1 h).length_le
    · rw [sameNames_of_length rfl (Nat.not_lt.1 hlt), decide_eq_decide.2 hwithin]
  | false =>
    have hwithin : ¬ p.Within other := fun h =>
      Bool.false_ne_true (hotherabs.symm.trans (h.1.symm.trans habs))
    rw [decide_eq_false hwithin]
    split_ifs
    · rfl
    · obtain ⟨name, others, hothers, hne⟩ := exists_name_ne_nil hother hotherabs
      rw [hnames, hothers, List.length_cons]
      exact sameNames_of_head_ne hne.symm _

/-- The placeholder contains itself only. -/
theorem contain_of_isHere (hp : p.isNull = false) (hother : other.isNull = false)
    (hhere : p.IsHere) : p.contain other = some (decide other.IsHere) := by
  rw [contain_eq hp hother, size_of_isHere hp hhere, if_neg (Nat.not_lt.2 other.size_pos),
    name_db_of_isHere hp hhere]
  by_cases hotherhere : other.IsHere
  · rw [decide_eq_true hotherhere, name_db_of_isHere hother hotherhere]
    rfl
  · rw [decide_eq_false hotherhere]
    cases hotherabs : other.isAbsolute with
    | true =>
      obtain ⟨names, hnames⟩ := exists_name_of_absolute hother hotherabs
      rw [hnames]
      exact sameNames_of_head_ne (by decide) 0
    | false =>
      obtain ⟨name, names, hnames, -, hdot⟩ :=
        exists_name_of_relative hother hotherabs fun h => hotherhere ⟨hotherabs, h⟩
      rw [hnames]
      exact sameNames_of_head_ne hdot.symm 0

/-- Any other relative path has a name less than its size. -/
theorem contain_of_relative (hp : p.isNull = false) (hother : other.isNull = false)
    (hrel : p.isAbsolute = false) (hwalk : p.walk ≠ 1) :
    p.contain other = if p.Within other then none else some false := by
  obtain ⟨name, names, hnames, hne, hdot⟩ := exists_name_of_relative hp hrel hwalk
  have hdir := dirNames_of_relative hp hrel hwalk
  rw [contain_eq hp hother, size_of_relative hp hrel hwalk]
  cases hotherabs : other.isAbsolute with
  | true =>
    rw [if_neg (c := p.Within other) fun h =>
      Bool.false_ne_true (hrel.symm.trans (h.1.trans hotherabs))]
    split_ifs
    · rfl
    · obtain ⟨others, hothers⟩ := exists_name_of_absolute hother hotherabs
      rw [hnames, hothers]
      exact sameNames_of_head_ne hne _
  | false =>
    by_cases hotherwalk : other.walk = 1
    · have hhere : other.IsHere := ⟨hotherabs, hotherwalk⟩
      have hlen : 0 < p.name_db.length := List.length_pos_of_ne_nil (name_db_ne_nil hp)
      rw [size_of_isHere hother hhere, if_pos (by omega), if_neg]
      rintro ⟨-, hprefix⟩
      rw [hdir, dirNames, name_db_of_isHere hother hhere] at hprefix
      exact name_db_ne_nil hp (List.prefix_nil.1 hprefix)
    · have hwithin : p.Within other ↔ p.name_db <+: other.name_db := by
        rw [Within, hrel, hotherabs, hdir, dirNames_of_relative hother hotherabs hotherwalk]
        exact and_iff_right rfl
      rw [size_of_relative hother hotherabs hotherwalk]
      split_ifs with hlt hin hin
      · exact absurd (hwithin.1 hin).length_le (by omega)
      · rfl
      · rw [sameNames_of_lt (Nat.lt_succ_self _) (by omega), if_pos (hwithin.1 hin)]
      · rw [sameNames_of_lt (Nat.lt_succ_self _) (by omega), if_neg (mt hwithin.2 hin)]

/-! ### When the answer is right -/

theorem within_of_isHere (hp : p.IsHere) (hother : other.isAbsolute = false) : p.Within other := by
  refine ⟨hp.1.trans hother.symm, ?_⟩
  rw [dirNames_eq p, hp.1, hp.2]
  exact List.nil_prefix

theorem exact_iff (hp : p.isNull = false) (hother : other.isNull = false) :
    p.Exact other ↔ p.isAbsolute = true ∨ ¬ p.Within other ∨ p.IsHere ∧ other.IsHere := by
  rw [Exact]
  cases habs : p.isAbsolute with
  | true =>
    rw [contain_of_absolute hp hother habs]
    by_cases hin : p.Within other
    · simp [hin]
    · simp [hin]
  | false =>
    by_cases hwalk : p.walk = 1
    · have hhere : p.IsHere := ⟨habs, hwalk⟩
      rw [contain_of_isHere hp hother hhere]
      cases hotherabs : other.isAbsolute with
      | true =>
        have hnot : ¬ p.Within other := fun h =>
          Bool.false_ne_true (habs.symm.trans (h.1.trans hotherabs))
        have hnothere : ¬ other.IsHere := fun h =>
          Bool.false_ne_true (h.1.symm.trans hotherabs)
        simp [hnot, hnothere]
      | false => simp [within_of_isHere hhere hotherabs, hhere]
    · have hnothere : ¬ p.IsHere := fun h => hwalk h.2
      rw [contain_of_relative hp hother habs hwalk]
      by_cases hin : p.Within other
      · simp [hin, hnothere]
      · simp [hin]

theorem within_refl (p : FilePath) : p.Within p := ⟨rfl, List.prefix_rfl⟩

theorem Within.trans (h : p.Within other) (h' : other.Within q) : p.Within q :=
  ⟨h.1.trans h'.1, h.2.trans h'.2⟩

theorem contain_self_iff (hp : p.isNull = false) :
    p.contain p = some true ↔ p.isAbsolute = true ∨ p.IsHere := by
  have hexact := exact_iff hp hp
  rw [Exact] at hexact
  simp only [within_refl, and_true, not_true, and_false, or_false, false_or, and_self] at hexact
  exact hexact

/-- The subpaths of an absolute path are what its names begin with. -/
theorem subpath_of_absolute (hp : p.isNull = false) (habs : p.isAbsolute = true) {i : ℕ}
    (hi : i < p.size) : ∃ sub, p.subpath i = some sub ∧ sub.drvletter = p.drvletter ∧
      sub.name_db = p.name_db.take (i + 1) := by
  refine ⟨_, if_pos hi, rfl, ?_⟩
  show normalize (p.name_db.take (if p.isAbsolute = true then i + 1 else i)) = _
  rw [if_pos habs]
  have hnormal := (normal_of_normalize (normalize_name_db hp)).resolve_left fun hdot => by
    obtain ⟨names, hnames⟩ := exists_name_of_absolute hp habs
    rw [hnames] at hdot
    exact absurd (List.cons.inj hdot).1 (by decide)
  rw [← List.take_append_drop (i + 1) p.name_db] at hnormal
  refine normalize_of_normal hnormal.of_append fun hnil => ?_
  exact name_db_ne_nil hp ((List.take_eq_nil_iff.1 hnil).resolve_left (Nat.succ_ne_zero i))

theorem isNull_of_name_db (h : p.name_db ≠ []) : p.isNull = false := by
  rw [Bool.eq_false_iff]
  exact fun hnull => h (isNull_iff.1 hnull).2

theorem Nested.of_absolute (hp : p.isNull = false) (habs : p.isAbsolute = true) : p.Nested := by
  have hsize := size_of_absolute habs
  have hpos : 0 < p.name_db.length := List.length_pos_of_ne_nil (name_db_ne_nil hp)
  obtain ⟨names, hnames⟩ := exists_name_of_absolute hp habs
  have hsub : ∀ {sub : FilePath} {i : ℕ}, sub.name_db = p.name_db.take (i + 1) →
      sub.isNull = false ∧ sub.isAbsolute = true := by
    intro sub i htake
    rw [hnames, List.take_succ_cons] at htake
    constructor
    · exact isNull_of_name_db (by rw [htake]; exact List.cons_ne_nil _ _)
    · rw [isAbsolute, htake]
      rfl
  refine ⟨(contain_self_iff hp).2 (.inl habs), fun i hi => ?_, ?_⟩
  · obtain ⟨sub, hsubpath, -, htake⟩ := subpath_of_absolute hp habs (i := i) (by omega)
    obtain ⟨next, hnextpath, -, htake'⟩ := subpath_of_absolute hp habs hi
    obtain ⟨hsubnull, hsubabs⟩ := hsub htake
    obtain ⟨hnextnull, hnextabs⟩ := hsub htake'
    refine ⟨sub, next, hsubpath, hnextpath, ?_⟩
    rw [contain_of_absolute hsubnull hnextnull hsubabs, decide_eq_true]
    refine ⟨hsubabs.trans hnextabs.symm, ?_⟩
    rw [dirNames_of_absolute hsubnull hsubabs, dirNames_of_absolute hnextnull hnextabs, htake,
      htake']
    exact List.take_prefix_take_left (Nat.le_succ _)
  · obtain ⟨sub, hsubpath, hdrv, htake⟩ :=
      subpath_of_absolute hp habs (i := p.size - 1) (by omega)
    rw [hsubpath]
    congr 1
    refine FilePath.ext hdrv ?_
    rw [htake, hsize, Nat.sub_add_cancel hpos, List.take_length]

theorem Nested.of_isHere (hp : p.isNull = false) (hhere : p.IsHere) : p.Nested := by
  have hsize := size_of_isHere hp hhere
  refine ⟨(contain_self_iff hp).2 (.inr hhere), fun i hi => ?_, ?_⟩
  · rw [hsize] at hi
    omega
  · rw [hsize, subpath, hsize, if_pos Nat.one_pos]
    refine congrArg some (FilePath.ext rfl ?_)
    show normalize (p.name_db.take (if p.isAbsolute = true then _ else _)) = _
    rw [hhere.1, name_db_of_isHere hp hhere]
    rfl

/-! ### An order -/

theorem isNull_of_contain (h : p.contain other = some true) :
    p.isNull = false ∧ other.isNull = false := by
  by_cases hnull : (p.isNull || other.isNull) = true
  · rw [contain, if_pos hnull] at h
    cases h
  · simpa using hnull

theorem contain_eq_true_iff (hp : p.isNull = false) (hother : other.isNull = false) :
    p.contain other = some true ↔
      p.isAbsolute = true ∧ p.Within other ∨ p.IsHere ∧ other.IsHere := by
  cases habs : p.isAbsolute with
  | true =>
    have hnot : ¬ p.IsHere := fun h => Bool.false_ne_true (h.1.symm.trans habs)
    rw [contain_of_absolute hp hother habs]
    simp [hnot]
  | false =>
    by_cases hwalk : p.walk = 1
    · have hhere : p.IsHere := ⟨habs, hwalk⟩
      rw [contain_of_isHere hp hother hhere]
      simp [hhere]
    · have hnot : ¬ p.IsHere := fun h => hwalk h.2
      rw [contain_of_relative hp hother habs hwalk]
      by_cases hin : p.Within other
      · simp [hin, hnot]
      · simp [hin, hnot]

theorem contain_trans (h : p.contain other = some true) (h' : other.contain q = some true) :
    p.contain q = some true := by
  obtain ⟨hp, hother⟩ := isNull_of_contain h
  obtain ⟨-, hq⟩ := isNull_of_contain h'
  rw [contain_eq_true_iff hp hother] at h
  rw [contain_eq_true_iff hother hq] at h'
  rw [contain_eq_true_iff hp hq]
  rcases h with ⟨habs, hin⟩ | ⟨hhere, hotherhere⟩
  · rcases h' with ⟨-, hin'⟩ | ⟨hotherhere, -⟩
    · exact .inl ⟨habs, hin.trans hin'⟩
    · exact absurd (habs.symm.trans (hin.1.trans hotherhere.1)) Bool.noConfusion
  · rcases h' with ⟨hotherabs, -⟩ | ⟨-, hqhere⟩
    · exact absurd (hotherabs.symm.trans hotherhere.1) Bool.noConfusion
    · exact .inr ⟨hhere, hqhere⟩

theorem contain_antisymm (h : p.contain other = some true) (h' : other.contain p = some true) :
    p.name_db = other.name_db := by
  obtain ⟨hp, hother⟩ := isNull_of_contain h
  rw [contain_eq_true_iff hp hother] at h
  rw [contain_eq_true_iff hother hp] at h'
  rcases h with ⟨habs, hin⟩ | ⟨hhere, hotherhere⟩
  · have hotherabs := hin.1.symm.trans habs
    have hin' := (h'.resolve_right fun hboth =>
      Bool.false_ne_true (hboth.2.1.symm.trans habs)).2
    have heq := hin.2.eq_of_length_le hin'.2.length_le
    rwa [dirNames_of_absolute hp habs, dirNames_of_absolute hother hotherabs] at heq
  · rw [name_db_of_isHere hp hhere, name_db_of_isHere hother hotherhere]

/-- **Containment**: `contain` is right about two paths unless the first one is relative and the
second one within it (the placeholder and itself apart); the subpaths of a path are a chain
unless it is relative; and what `contain` says is an order. -/
theorem contain_iff (hp : p.isNull = false) (hother : other.isNull = false) :
    (p.Exact other ↔ p.isAbsolute = true ∨ ¬ p.Within other ∨ p.IsHere ∧ other.IsHere) ∧
    (p.Nested ↔ p.isAbsolute = true ∨ p.IsHere) ∧
    (∀ q : FilePath, p.contain other = some true → other.contain q = some true →
      p.contain q = some true) ∧
    (p.contain other = some true → other.contain p = some true → p.name_db = other.name_db) := by
  refine ⟨exact_iff hp hother, ⟨fun h => (contain_self_iff hp).1 h.refl, ?_⟩,
    fun q => contain_trans, contain_antisymm⟩
  rintro (habs | hhere)
  · exact .of_absolute hp habs
  · exact .of_isHere hp hhere

/-- `/tmp` and `/tmp/x`. -/
theorem contain_iff_tmp : (ofString [47, 116, 109, 112]).contain
      (ofString [47, 116, 109, 112, 47, 120]) = some true ∧
    (ofString [47, 116, 109, 112, 47, 120]).Nested := by
  have hnull : (ofString [47, 116, 109, 112, 47, 120]).isNull = false := by decide
  have hother : (ofString [47, 116, 109, 112]).isNull = false := by decide
  exact ⟨by decide, (contain_iff hnull hother).2.1.2 (.inl (by decide))⟩

/-- `tmp` and itself: the loop goes on to a second name. -/
theorem not_contain : (ofString [116, 109, 112]).isNull = false ∧
    ¬ (ofString [116, 109, 112]).Exact (ofString [116, 109, 112]) ∧
    ¬ (ofString [116, 109, 112]).Nested := by
  refine ⟨by decide, fun h => ?_, fun h => absurd h.refl (by decide)⟩
  rcases h with ⟨h, -⟩ | ⟨h, -⟩
  · exact absurd h (by decide)
  · exact absurd h (by decide)

end FilePath

end Neoip
