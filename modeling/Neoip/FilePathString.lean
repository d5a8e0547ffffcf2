/-
Neoip/FilePathString.lean

What a path string denotes, and what its normal form keeps of it.

A string leads somewhere from a directory: from the root when it begins with a
separator, and then along its names as steps (`locationOf`).  The path which is made
from the string leads to the same location, unless the placeholders in front of an
empty name are erased, which then makes the path absolute: `./` is the root.  The
path is read back from its own string unless a colon has come to the front, and it is
its `dirname` followed by its `basename` unless it is a single name, which is its own
`dirname`, or its last name holds a colon, which `basename` takes for the one of a
drive letter.

Main result: `normalises_iff`.
-/
import Neoip.FilePathWalk

namespace Neoip

/-! ### Path strings -/

/-- The string begins with a separator. -/
def beginsAtRoot (pathname : Datum) : Bool := pathname.head?.any isSepa

/-- There is no colon before the first separator. -/
def NoDrvletter (pathname : Datum) : Prop :=
  ∀ name, (splitSepa pathname).head? = some name → 58 ∉ name

/-- Where the string leads from a directory. -/
def locationOf (pathname : Datum) (dir : List Datum) : List Datum :=
  (walkOf (splitSepa pathname)).follow (if beginsAtRoot pathname then [] else dir)

variable {pathname other : Datum} {name : Datum} {name_db : List Datum}

theorem splitSepa_append_cons (pathname other : Datum) {sepa : UInt8} (h : isSepa sepa = true) :
    splitSepa (pathname ++ sepa :: other) = splitSepa pathname ++ splitSepa other :=
  List.splitOnP_append_cons pathname other h

theorem splitSepa_ne_nil (pathname : Datum) : splitSepa pathname ≠ [] :=
  List.splitOnP_ne_nil _ _

theorem splitSepa_eq_singleton (h : ∀ c ∈ name, isSepa c = false) : splitSepa name = [name] :=
  List.splitOnP_eq_singleton h

/-- A string which begins with a separator has an empty first name. -/
theorem isRooted_of_beginsAtRoot (h : beginsAtRoot pathname = true) :
    isRooted (splitSepa pathname) = true := by
  cases pathname with
  | nil => cases h
  | cons c rest =>
    have hc : isSepa c = true := h
    have hsplit : splitSepa (c :: rest) = [[]] ++ splitSepa rest :=
      splitSepa_append_cons [] rest hc
    rw [isRooted, hsplit]
    rfl

theorem NoDrvletter.append (h : NoDrvletter pathname) (other : Datum) {sepa : UInt8}
    (hsepa : isSepa sepa = true) : NoDrvletter (pathname ++ sepa :: other) := by
  intro name hhead
  rw [splitSepa_append_cons pathname other hsepa] at hhead
  obtain ⟨first, rest, hsplit⟩ := List.exists_cons_of_ne_nil (splitSepa_ne_nil pathname)
  rw [hsplit] at hhead
  refine h name ?_
  rw [hsplit]
  exact hhead

/-- A name of a single step. -/
theorem IsName.normal_singleton (h : IsName name) : Normal [name] where
  no_placeholder hmem := h.2.1 (List.mem_singleton.1 hmem).symm
  no_empty := List.not_mem_nil
  no_parent := rfl
  no_head_parent _ hrest := absurd (List.cons.inj hrest).1 h.1

theorem normalize_singleton (hne : name ≠ []) : normalize [name] = [name] := by
  by_cases hdot : name = dirPlaceholder
  · rw [hdot]
    rfl
  · by_cases hparent : name = dirParent
    · rw [hparent]
      rfl
    · exact normalize_of_normal (IsName.normal_singleton ⟨hne, hdot, hparent⟩) (List.cons_ne_nil _ _)

namespace FilePath

variable {p dir base : FilePath}

/-- Where the path leads from a directory. -/
def location (p : FilePath) (dir : List Datum) : List Datum :=
  p.walk.follow (if p.isAbsolute then [] else dir)

/-- The path is its `dirname` followed by its `basename`. -/
def Rejoins (p : FilePath) : Prop :=
  ∃ dir base, p.dirname = some dir ∧ p.basename = some base ∧ dir.append base = p

/-- What normalising a path string is for. -/
structure Normalises (pathname : Datum) : Prop where
  location : ∀ dir, (ofString pathname).location dir = locationOf pathname dir
  absolute : (ofString pathname).isAbsolute = beginsAtRoot pathname
  idempotent : normalize (ofString pathname).name_db = (ofString pathname).name_db
  placeholder : dirPlaceholder ∈ (ofString pathname).name_db →
    (ofString pathname).name_db = [dirPlaceholder]
  separators : [] ∉ (ofString pathname).name_db.tail
  parents : ∀ before name after,
    (ofString pathname).name_db = before ++ name :: dirParent :: after → name = dirParent
  reads_back : ofString (ofString pathname).toString = ofString pathname
  appends : ∀ other sepa, NoDrvletter other → isSepa sepa = true →
    (ofString other).isNull = false → (ofString other).isAbsolute = false →
      (ofString pathname).append (ofString other) = ofString (pathname ++ sepa :: other)
  rejoins : (ofString pathname).Rejoins

/-- The strings whose path is what it should be; the names are those which are left of the
string when each parent takes a name back. -/
structure Regular (pathname : Datum) : Prop where
  nonempty : pathname ≠ []
  /-- The first name which is no placeholder is empty only where the string begins. -/
  rooted : isRooted (splitSepa pathname) = true → beginsAtRoot pathname = true
  first_colon : isRooted (splitSepa pathname) = false → (walkOf (splitSepa pathname)).up = 0 →
    ∀ name, (walkOf (splitSepa pathname)).down.head? = some name → 58 ∉ name
  last_colon : ∀ name, (walkOf (splitSepa pathname)).down.getLast? = some name → 58 ∉ name
  not_single : isRooted (splitSepa pathname) = false →
    (walkOf (splitSepa pathname)).up + (walkOf (splitSepa pathname)).down.length ≠ 1

/-! ### The path of a string -/

theorem ofString_eq (hne : pathname ≠ []) (h : NoDrvletter pathname) :
    (ofString pathname).drvletter = [] ∧
      (ofString pathname).name_db = normalize (splitSepa pathname) := by
  obtain ⟨first, rest, hsplit⟩ := List.exists_cons_of_ne_nil (splitSepa_ne_nil pathname)
  have hcolon : 58 ∉ first := h first (by rw [hsplit]; rfl)
  have hdrv : splitDrvletter (splitSepa pathname) = ([], splitSepa pathname) := by
    rw [hsplit, splitDrvletter, if_neg hcolon]
  simp only [ofString, if_neg hne, ofNames, hdrv, and_self]

theorem isNull_ofString (hne : pathname ≠ []) : (ofString pathname).isNull = false := by
  rw [Bool.eq_false_iff]
  intro hnull
  have hnil := (isNull_iff.1 hnull).2
  rw [ofString, if_neg hne] at hnil
  exact normalize_ne_nil _ hnil

/-- The walk of a normal form is the one of the names, from the root without its steps up. -/
theorem isAbsolute_walk_of_eq (h : p.name_db = normalize name_db) :
    p.isAbsolute = isRooted name_db ∧
      p.walk = if isRooted name_db then ⟨0, (walkOf name_db).down⟩ else walkOf name_db := by
  have hmem : ∀ name ∈ (walkOf name_db).down, IsName name := fun name => isName_of_mem_down
  rw [normalize_eq] at h
  constructor
  · rw [isAbsolute, h, head?_namesOf _ hmem]
  · rw [walk, h, walkOf_namesOf _ hmem]

theorem location_of_eq (h : p.name_db = normalize name_db) (dir : List Datum) :
    p.location dir = (walkOf name_db).follow (if isRooted name_db then [] else dir) := by
  obtain ⟨habs, hwalk⟩ := isAbsolute_walk_of_eq h
  rw [location, habs, hwalk]
  cases isRooted name_db with
  | true => simp
  | false => rfl

/-- Two paths without drive letter which lead along the same steps are the same. -/
theorem eq_of_walk {q : FilePath} (hp : p.isNull = false) (hq : q.isNull = false)
    (hdrv : p.drvletter = q.drvletter) (habs : p.isAbsolute = q.isAbsolute)
    (hwalk : p.walk = q.walk) : p = q :=
  FilePath.ext hdrv (by rw [name_db_eq hp, name_db_eq hq, habs, hwalk])

/-- Joining the strings is appending the paths. -/
theorem append_ofString (hne : pathname ≠ []) (h : NoDrvletter pathname)
    (hother : NoDrvletter other) {sepa : UInt8} (hsepa : isSepa sepa = true)
    (hnull : (ofString other).isNull = false) (hrel : (ofString other).isAbsolute = false) :
    (ofString pathname).append (ofString other) = ofString (pathname ++ sepa :: other) := by
  have hother' : other ≠ [] := by
    rintro rfl
    cases hnull
  have hjoin : pathname ++ sepa :: other ≠ [] := by simp
  obtain ⟨hdrvP, hnamesP⟩ := ofString_eq hne h
  obtain ⟨-, hnamesO⟩ := ofString_eq hother' hother
  obtain ⟨hdrvJ, hnamesJ⟩ := ofString_eq hjoin (h.append other hsepa)
  obtain ⟨habsP, hwalkP⟩ := isAbsolute_walk_of_eq hnamesP
  obtain ⟨habsO, hwalkO⟩ := isAbsolute_walk_of_eq hnamesO
  obtain ⟨habsJ, hwalkJ⟩ := isAbsolute_walk_of_eq hnamesJ
  have hroot : isRooted (splitSepa (pathname ++ sepa :: other)) = isRooted (splitSepa pathname) := by
    rw [habsO] at hrel
    rw [splitSepa_append_cons _ _ hsepa]
    unfold isRooted at hrel ⊢
    rw [List.filter_append]
    cases hfilter : (splitSepa pathname).filter fun name => name ≠ dirPlaceholder with
    | nil => exact hrel
    | cons name names => rfl
  obtain ⟨habs, hwalk⟩ := append_spec (ofString pathname) (ofString other)
  have hPnull := isNull_ofString hne
  have habs' : ((ofString pathname).append (ofString other)).isAbsolute
      = isRooted (splitSepa pathname) := by
    rw [Bool.eq_iff_iff, habs, hrel, habsP]
    simp
  apply eq_of_walk
  · rw [Bool.eq_false_iff]
    exact fun hboth => Bool.false_ne_true (hPnull.symm.trans ((isNull_append _ _).1 hboth).1)
  · exact isNull_ofString hjoin
  · rw [drvletter_append, hPnull, if_neg Bool.false_ne_true, hdrvP, hdrvJ]
  · rw [habs', habsJ, hroot]
  · rw [hwalk, habs', hwalkJ, hroot, hwalkP, hwalkO, ← habsO, hrel,
      splitSepa_append_cons _ _ hsepa, walkOf_append]
    cases isRooted (splitSepa pathname) with
    | true => rfl
    | false => rfl

/-! ### `dirname` and `basename` -/

/-- `dirname` of several names. -/
theorem dirname_of_append (hnull : p.isNull = false) (hnames : p.name_db = name_db ++ [name])
    (hne : name_db ≠ []) :
    ∃ dir, p.dirname = some dir ∧ dir.drvletter = p.drvletter ∧ dir.name_db = name_db := by
  have hpos : 0 < name_db.length := List.length_pos_of_ne_nil hne
  have hlen : p.name_db.length = name_db.length + 1 := by
    rw [hnames, List.length_append, List.length_singleton]
  have hsize : p.name_db.length ≤ p.size := by
    rw [size]
    split_ifs <;> omega
  have hkept : normalize name_db = name_db := by
    have hnormal := normalize_name_db hnull
    rw [hnames] at hnormal
    rcases normal_of_normalize hnormal with hdot | hnormal
    · have hone := congrArg List.length hdot
      rw [List.length_append, List.length_singleton, List.length_singleton] at hone
      omega
    · exact normalize_of_normal hnormal.of_append hne
  have htake : p.name_db.take name_db.length = name_db := by
    rw [hnames]
    exact List.take_left
  rw [dirname, if_neg (by rw [hnull]; exact Bool.false_ne_true), if_neg (by omega)]
  cases habs : p.isAbsolute with
  | true =>
    rw [if_pos rfl, subpath, if_pos (by omega)]
    refine ⟨_, rfl, rfl, ?_⟩
    show normalize (p.name_db.take (if p.isAbsolute = true then _ else _)) = name_db
    rw [habs, if_pos rfl, hlen, show name_db.length + 1 - 2 + 1 = name_db.length by omega, htake,
      hkept]
  | false =>
    have hrel : p.name_db.length - 1 < p.size := by omega
    rw [if_neg Bool.false_ne_true, subpath, if_pos hrel]
    refine ⟨_, rfl, rfl, ?_⟩
    show normalize (p.name_db.take (if p.isAbsolute = true then _ else _)) = name_db
    rw [habs, if_neg Bool.false_ne_true, hlen, Nat.add_sub_cancel, htake, hkept]

theorem dirname_of_singleton (hnull : p.isNull = false) (hnames : p.name_db = [name]) :
    p.dirname = some p := by
  rw [dirname, hnull, if_neg Bool.false_ne_true, if_pos (by rw [hnames]; exact le_rfl)]

theorem basename_of_append (hnames : p.name_db = name_db ++ [name]) :
    p.basename = some (ofString name) := by
  rw [basename, hnames, List.getLast?_concat]
  rfl

theorem noSepa_of_mem (h : name ∈ p.name_db) : ∀ c ∈ name, isSepa c = false := p.no_sepa name h

/-- A name without a colon is the path of a single name. -/
theorem name_db_ofString_name (hsepa : ∀ c ∈ name, isSepa c = false) (hne : name ≠ [])
    (hcolon : 58 ∉ name) : (ofString name).name_db = [name] := by
  have hsplit := splitSepa_eq_singleton hsepa
  have hdrv : NoDrvletter name := by
    intro first hhead
    rw [hsplit] at hhead
    obtain rfl := Option.some.inj hhead
    exact hcolon
  rw [(ofString_eq hne hdrv).2, hsplit, normalize_singleton hne]

/-- A name with a colon loses what is before it, and the colon. -/
theorem notMem_walk_ofString (hsepa : ∀ c ∈ name, isSepa c = false) (hcolon : 58 ∈ name) :
    name ∉ (ofString name).walk.down := by
  have hne : name ≠ [] := List.ne_nil_of_mem hcolon
  have hnames : (ofString name).name_db = normalize [(name.dropWhile (· ≠ 58)).tail] := by
    rw [ofString, if_neg hne]
    show normalize (splitDrvletter (splitSepa name)).2 = _
    rw [splitSepa_eq_singleton hsepa, splitDrvletter, if_pos hcolon]
  have hlen : ((name.dropWhile (· ≠ 58)).tail).length < name.length := by
    have hpos := List.length_pos_of_mem hcolon
    have hle := (List.dropWhile_sublist (l := name) fun c => decide (c ≠ 58)).length_le
    rw [List.length_tail]
    omega
  generalize (name.dropWhile (· ≠ 58)).tail = lost at hnames hlen
  intro hmem
  have hdown : name ∈ (walkOf [lost]).down := by
    obtain ⟨-, hwalk⟩ := isAbsolute_walk_of_eq hnames
    rw [hwalk] at hmem
    cases hroot : isRooted [lost] with
    | true =>
      rw [hroot] at hmem
      exact hmem
    | false =>
      rw [hroot] at hmem
      exact hmem
  rw [walkOf_cons, walkOf_nil, mul_one, stepOf] at hdown
  split_ifs at hdown
  · cases hdown
  · cases hdown
  · obtain rfl := List.mem_singleton.1 hdown
    exact Nat.lt_irrefl _ hlen

/-- Several names: the last one is given back unless it holds a colon. -/
theorem rejoins_iff_of_append (hnull : p.isNull = false) (hnames : p.name_db = name_db ++ [name])
    (hne : name_db ≠ []) : p.Rejoins ↔ 58 ∉ name := by
  obtain ⟨dir, hdir, hdrv, hdirnames⟩ := dirname_of_append hnull hnames hne
  have hbase := basename_of_append hnames
  have hsepa : ∀ c ∈ name, isSepa c = false :=
    noSepa_of_mem (p := p) (by rw [hnames]; exact List.mem_append_right _ (List.mem_singleton_self _))
  have hdirnull : dir.isNull = false := by
    rw [Bool.eq_false_iff]
    intro hdirnull
    rw [(isNull_iff.1 hdirnull).2] at hdirnames
    exact hne hdirnames.symm
  have hjoin : (dir.append (ofString name)).drvletter = p.drvletter ∧
      (dir.append (ofString name)).name_db = normalize (name_db ++ (ofString name).name_db) := by
    rw [append, hdirnull, if_neg Bool.false_ne_true]
    exact ⟨hdrv, by rw [← hdirnames]; rfl⟩
  constructor
  · rintro ⟨dir', base, hdir', hbase', heq⟩ hcolon
    obtain rfl := Option.some.inj (hdir.symm.trans hdir')
    obtain rfl := Option.some.inj (hbase.symm.trans hbase')
    have hname : IsName name :=
      ⟨List.ne_nil_of_mem hcolon, by rintro rfl; exact absurd hcolon (by decide),
        by rintro rfl; exact absurd hcolon (by decide)⟩
    have hlast : p.walk.down = dir.walk.down ++ [name] := by
      rw [walk, hnames, walkOf_append, walk, hdirnames, walkOf_cons, walkOf_nil, mul_one,
        hname.stepOf, Walk.mul_down]
      show List.take (_ - 0) _ ++ [name] = _
      rw [Nat.sub_zero, List.take_length]
    have hdown : p.walk.down = (dir.walk * (ofString name).walk).down := by
      rw [← heq, (append_spec dir (ofString name)).2]
      split_ifs <;> rfl
    rw [hlast, Walk.mul_down] at hdown
    have hmem := notMem_walk_ofString hsepa hcolon
    -- what the last name has become is not the last name
    rcases List.eq_nil_or_concat (ofString name).walk.down with hnil | ⟨front, last, hfront⟩
    · have hlen := congrArg List.length hdown
      rw [hnil, List.append_nil, List.length_append, List.length_singleton] at hlen
      have := List.length_take_le' (dir.walk.down.length - (ofString name).walk.up) dir.walk.down
      omega
    · rw [List.concat_eq_append] at hfront
      rw [hfront, ← List.append_assoc] at hdown
      obtain ⟨-, hlast⟩ := List.append_inj' hdown rfl
      rw [hfront, ← List.cons.inj hlast |>.1] at hmem
      exact hmem (List.mem_append_right _ (List.mem_singleton_self _))
  · intro hcolon
    have hnil : name ≠ [] := by
      rintro rfl
      have hnormal := normalize_name_db hnull
      rcases normal_of_normalize hnormal with hdot | hnormal
      · rw [hnames] at hdot
        have hlen := congrArg List.length hdot
        rw [List.length_append, List.length_singleton, List.length_singleton] at hlen
        exact hne (List.eq_nil_of_length_eq_zero (by omega))
      · refine hnormal.no_empty ?_
        rw [hnames, List.tail_append_of_ne_nil hne]
        exact List.mem_append_right _ (List.mem_singleton_self _)
    refine ⟨dir, _, hdir, hbase, FilePath.ext hjoin.1 ?_⟩
    rw [hjoin.2, name_db_ofString_name hsepa hnil hcolon, ← hnames, normalize_name_db hnull]

/-- A single name is its own `dirname`: only the root and the placeholder stay where they are. -/
theorem rejoins_iff_of_singleton (hnull : p.isNull = false) (hnames : p.name_db = [name])
    (hcolon : 58 ∉ name) : p.Rejoins ↔ name = [] ∨ name = dirPlaceholder := by
  have hdir := dirname_of_singleton hnull hnames
  have hbase : p.basename = some (ofString name) :=
    basename_of_append (hnames.trans (List.nil_append _).symm)
  have hsepa : ∀ c ∈ name, isSepa c = false :=
    noSepa_of_mem (p := p) (by rw [hnames]; exact List.mem_singleton_self _)
  have hstay : p.Rejoins ↔ p.append (ofString name) = p := by
    constructor
    · rintro ⟨dir, base, hdir', hbase', heq⟩
      obtain rfl := Option.some.inj (hdir.symm.trans hdir')
      obtain rfl := Option.some.inj (hbase.symm.trans hbase')
      exact heq
    · exact fun heq => ⟨p, _, hdir, hbase, heq⟩
  rw [hstay]
  -- the only name is joined to itself
  by_cases hnil : name = []
  · subst hnil
    exact iff_of_true (append_null p) (.inl rfl)
  · have hnames' : (p.append (ofString name)).name_db = normalize ([name] ++ [name]) := by
      rw [append, hnull, if_neg Bool.false_ne_true, ← name_db_ofString_name hsepa hnil hcolon]
      show normalize (p.name_db ++ _) = _
      rw [hnames, name_db_ofString_name hsepa hnil hcolon]
    constructor
    · intro heq
      refine .inr ?_
      rw [heq, hnames, normalize_eq, walkOf_append] at hnames'
      by_contra hdot
      by_cases hparent : name = dirParent
      · subst hparent
        exact absurd hnames' (by decide)
      · have hname : IsName name := ⟨hnil, hdot, hparent⟩
        have hroot : isRooted ([name] ++ [name]) = false := by
          rw [isRooted, List.cons_append, List.filter_cons, if_pos (by simpa using hdot)]
          simpa using hnil
        have hlen := congrArg List.length hnames'
        rw [hroot, walkOf_cons, walkOf_nil, mul_one, hname.stepOf, namesOf,
          if_neg Bool.false_ne_true, Walk.child_mul rfl, if_neg (by simp [Walk.ext_iff])] at hlen
        simp only [List.replicate_zero, List.nil_append, List.length_cons, List.length_nil] at hlen
        exact absurd (show 0 + 1 = 1 + 1 from hlen) (by decide)
    · intro hdot
      obtain rfl := hdot.resolve_left hnil
      refine FilePath.ext ?_ (by rw [hnames', hnames]; rfl)
      rw [drvletter_append, hnull, if_neg Bool.false_ne_true]

/-- The last name, when it is a step down, is the last one of the walk. -/
theorem getLast?_down_of_colon (hnull : p.isNull = false) (hnames : p.name_db = name_db ++ [name])
    (hcolon : 58 ∈ name) : p.walk.down.getLast? = some name := by
  have heq := name_db_eq hnull
  rw [hnames] at heq
  rcases List.eq_nil_or_concat p.walk.down with hnil | ⟨front, last, hfront⟩
  · -- there is no colon in the names which are no step down
    have hmem : name ∈ namesOf p.isAbsolute p.walk := by
      rw [← heq]
      exact List.mem_append_right _ (List.mem_singleton_self _)
    rw [namesOf, hnil, List.append_nil] at hmem
    split_ifs at hmem
    · rw [List.mem_singleton.1 hmem] at hcolon
      cases hcolon
    · rw [List.mem_singleton.1 hmem] at hcolon
      exact absurd hcolon (by decide)
    · rw [List.eq_of_mem_replicate hmem] at hcolon
      exact absurd hcolon (by decide)
  · rw [List.concat_eq_append] at hfront
    have hwalk : p.walk ≠ 1 := by
      intro hone
      rw [hone] at hfront
      exact absurd hfront.symm (by simp)
    have hlast : last = name := by
      rw [namesOf, if_neg hwalk, hfront] at heq
      split_ifs at heq
      · rw [← List.cons_append] at heq
        exact (List.cons.inj (List.append_inj' heq rfl).2).1.symm
      · rw [← List.append_assoc] at heq
        exact (List.cons.inj (List.append_inj' heq rfl).2).1.symm
    rw [hfront, List.getLast?_concat, hlast]

theorem getLast?_name_db (hnull : p.isNull = false) (hlast : p.walk.down.getLast? = some name) :
    p.name_db.getLast? = some name := by
  have hwalk : p.walk ≠ 1 := by
    intro hone
    rw [hone] at hlast
    cases hlast
  rw [name_db_eq hnull, namesOf, if_neg hwalk]
  split_ifs
  · rw [List.getLast?_cons, hlast]
    rfl
  · rw [List.getLast?_append, hlast]
    rfl

/-- The number of names of a relative path which goes somewhere. -/
theorem length_name_db (hnull : p.isNull = false) (hrel : p.isAbsolute = false)
    (hwalk : p.walk ≠ 1) : p.name_db.length = p.walk.up + p.walk.down.length := by
  rw [name_db_eq hnull, namesOf, hrel, if_neg Bool.false_ne_true, if_neg hwalk, List.length_append,
    List.length_replicate]

/-- **`dirname` and `basename`**, of a path which is read back. -/
theorem rejoins_iff (hnull : p.isNull = false)
    (hfirst : ∀ name, p.name_db.head? = some name → 58 ∉ name) :
    p.Rejoins ↔ (∀ name, p.walk.down.getLast? = some name → 58 ∉ name) ∧
      (p.isAbsolute = false → p.walk.up + p.walk.down.length ≠ 1) := by
  obtain ⟨front, last, hnames⟩ :=
    (List.eq_nil_or_concat p.name_db).resolve_left (name_db_ne_nil hnull)
  rw [List.concat_eq_append] at hnames
  cases front with
  | nil =>
    rw [List.nil_append] at hnames
    have hcolon : 58 ∉ last := hfirst last (by rw [hnames]; rfl)
    rw [rejoins_iff_of_singleton hnull hnames hcolon]
    have hlast : ∀ name, p.walk.down.getLast? = some name → 58 ∉ name := by
      intro name hname
      have := getLast?_name_db hnull hname
      rw [hnames] at this
      obtain rfl := Option.some.inj this
      exact hcolon
    have habs : p.isAbsolute = decide (last = []) := by
      rw [isAbsolute, hnames]
      exact decide_eq_decide.2 Option.some_inj
    constructor
    · rintro (rfl | rfl)
      · refine ⟨hlast, fun hrel => ?_⟩
        rw [habs] at hrel
        cases hrel
      · refine ⟨hlast, fun _ => ?_⟩
        rw [walk, hnames]
        decide
    · rintro ⟨-, hlen⟩
      by_cases hnil : last = []
      · exact .inl hnil
      · refine .inr ?_
        have hrel : p.isAbsolute = false := by rw [habs, decide_eq_false hnil]
        by_contra hdot
        refine hlen hrel ?_
        rw [← length_name_db hnull hrel, hnames, List.length_singleton]
        intro hone
        rw [name_db_eq hnull, hrel, hone] at hnames
        exact hdot (List.cons.inj hnames).1.symm
  | cons first front =>
    rw [rejoins_iff_of_append hnull hnames (List.cons_ne_nil _ _)]
    constructor
    · intro hcolon
      refine ⟨fun name hname => ?_, fun hrel hlen => ?_⟩
      · have hlast := getLast?_name_db hnull hname
        rw [hnames, List.getLast?_concat] at hlast
        obtain rfl := Option.some.inj hlast
        exact hcolon
      · have hwalk : p.walk ≠ 1 := by
          intro hone
          rw [hone] at hlen
          cases hlen
        rw [← length_name_db hnull hrel hwalk, hnames] at hlen
        simp at hlen
    · rintro ⟨hlast, -⟩ hcolon
      exact hlast last (getLast?_down_of_colon hnull hnames hcolon) hcolon

/-! ### What becomes of a string -/

theorem head?_name_db_iff (hnull : p.isNull = false) :
    (∀ name, p.name_db.head? = some name → 58 ∉ name) ↔
      (p.isAbsolute = false → p.walk.up = 0 →
        ∀ name, p.walk.down.head? = some name → 58 ∉ name) := by
  rw [name_db_eq hnull, namesOf]
  split_ifs with habs hone
  · refine iff_of_true ?_ fun hrel => Bool.noConfusion (habs.symm.trans hrel)
    intro name hname
    obtain rfl := Option.some.inj hname
    exact List.not_mem_nil
  · refine iff_of_true ?_ ?_
    · intro name hname
      obtain rfl := Option.some.inj hname
      decide
    · intro _ _ name hname
      rw [hone] at hname
      cases hname
  · rw [Bool.eq_false_iff.2 habs]
    cases hup : p.walk.up with
    | zero => exact ⟨fun h _ _ => h, fun h => h rfl rfl⟩
    | succ up =>
      refine iff_of_true ?_ fun _ h => Nat.noConfusion h
      intro name hname
      obtain rfl := Option.some.inj hname
      decide

theorem printsBack_iff (hdrv : p.drvletter = []) :
    p.PrintsBack ↔ ∀ name, p.name_db.head? = some name → 58 ∉ name := by
  rw [PrintsBack, hdrv]
  exact or_iff_right (not_not.2 rfl)

theorem rejoins_of_null (hnull : p.isNull = true) : ¬ p.Rejoins := by
  rintro ⟨dir, base, hdir, -⟩
  rw [dirname_of_null hnull] at hdir
  cases hdir

/-- **The path of a string**: it is what it should be exactly when the string is regular. -/
theorem normalises_iff (h : NoDrvletter pathname) : Normalises pathname ↔ Regular pathname := by
  by_cases hne : pathname = []
  · refine iff_of_false (fun hnorm => ?_) fun hreg => hreg.nonempty hne
    rw [hne] at hnorm
    exact rejoins_of_null rfl hnorm.rejoins
  have hnull := isNull_ofString hne
  obtain ⟨hdrv, hnames⟩ := ofString_eq hne h
  obtain ⟨habs, hwalk⟩ := isAbsolute_walk_of_eq hnames
  have hdown : (ofString pathname).walk.down = (walkOf (splitSepa pathname)).down := by
    rw [hwalk]
    split_ifs <;> rfl
  have hwalk' : (ofString pathname).isAbsolute = false →
      (ofString pathname).walk = walkOf (splitSepa pathname) := by
    intro hrel
    rw [hwalk, ← habs, hrel, if_neg Bool.false_ne_true]
  have hfirst := head?_name_db_iff hnull
  constructor
  -- each clause of a regular string is one way in which the string may not be read back
  · intro hnorm
    have hback := (printsBack_iff hdrv).1
      (name_db_ofString_iff.1 (congrArg FilePath.name_db hnorm.reads_back))
    obtain ⟨hlast, hsingle⟩ := (rejoins_iff hnull hback).1 hnorm.rejoins
    refine ⟨hne, fun hroot => ?_, fun hrel hup => ?_, ?_, fun hrel => ?_⟩
    · rw [← hnorm.absolute, habs, hroot]
    · rw [← habs] at hrel
      rw [← hwalk' hrel] at hup ⊢
      exact hfirst.1 hback hrel hup
    · rw [← hdown]
      exact hlast
    · rw [← habs] at hrel
      rw [← hwalk' hrel]
      exact hsingle hrel
  · intro hreg
    -- a name with a colon at the front would be read as a drive letter
    have hback : ∀ name, (ofString pathname).name_db.head? = some name → 58 ∉ name := by
      refine hfirst.2 fun hrel hup => ?_
      rw [hwalk' hrel] at hup ⊢
      exact hreg.first_colon (habs.symm.trans hrel) hup
    have hroot : isRooted (splitSepa pathname) = beginsAtRoot pathname := by
      rw [Bool.eq_iff_iff]
      exact ⟨hreg.rooted, isRooted_of_beginsAtRoot⟩
    have hnormal := normal_of_normalize (normalize_name_db hnull)
    refine ⟨fun dir => ?_, habs.trans hroot, normalize_name_db hnull, fun hmem => ?_, ?_, ?_,
      ofString_toString ((printsBack_iff hdrv).2 hback), ?_, (rejoins_iff hnull hback).2 ⟨?_, ?_⟩⟩
    · rw [location_of_eq hnames, hroot, locationOf]
    · exact hnormal.resolve_right fun hnormal => hnormal.no_placeholder hmem
    · rcases hnormal with hdot | hnormal
      · rw [hdot]
        exact List.not_mem_nil
      · exact hnormal.no_empty
    · intro before name after heq
      rcases hnormal with hdot | hnormal
      · rw [hdot] at heq
        have hlen := congrArg List.length heq
        rw [List.length_append, List.length_cons, List.length_cons, List.length_cons,
          List.length_nil] at hlen
        omega
      · rw [heq] at hnormal
        exact hnormal.eq_parent
    · intro other sepa hother hsepa hnullO hrelO
      exact append_ofString hne h hother hsepa hnullO hrelO
    · rw [hdown]
      exact hreg.last_colon
    · intro hrel
      rw [hwalk' hrel]
      exact hreg.not_single (habs.symm.trans hrel)

/-- The string `/tmp/./x/../y`. -/
def samplePathname : Datum := [47, 116, 109, 112, 47, 46, 47, 120, 47, 46, 46, 47, 121]

theorem normalises_iff_sample : Normalises samplePathname ∧
    (ofString samplePathname).name_db = [[], [116, 109, 112], [121]] := by
  have hdrv : NoDrvletter samplePathname := by
    intro name hname
    obtain rfl := Option.some.inj hname
    exact List.not_mem_nil
  refine ⟨(normalises_iff hdrv).2 ⟨by decide, fun _ => rfl, fun hrel => ?_, ?_, fun hrel => ?_⟩,
    by decide⟩
  · exact absurd hrel (by decide)
  · intro name hname
    obtain rfl := Option.some.inj hname
    decide
  · exact absurd hrel (by decide)

/-- The string `./` becomes the root. -/
theorem not_normalises : NoDrvletter [46, 47] ∧ ¬ Normalises [46, 47] := by
  constructor
  · intro name hname
    obtain rfl := Option.some.inj hname
    decide
  · intro hnorm
    exact absurd hnorm.absolute (by decide)

end FilePath

end Neoip
