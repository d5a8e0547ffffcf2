/-
Neoip/FilePathWalk.lean

The normal form of a path is a walk.

A name is a step down, the parent `..` a step up, and neither the placeholder nor an
empty name is a step.  `normalize` keeps the walk of the names it is given: each of
its erasures does, the last one apart, which forgets the steps up from the root.
What is left is the walk itself, written out (`normalize_eq`); so `/=` composes the
walks of two paths (`FilePath.walk_append`).
-/
import Neoip.FilePath
import Neoip.Walk

namespace Neoip

/-! ### The walk of names -/

/-- The step of a name. -/
def stepOf (name : Datum) : Walk Datum :=
  if name = [] ∨ name = dirPlaceholder then 1
  else if name = dirParent then Walk.parent
  else Walk.child name

def walkOf (name_db : List Datum) : Walk Datum := (name_db.map stepOf).prod

/-- A name which is a step down. -/
def IsName (name : Datum) : Prop := name ≠ [] ∧ name ≠ dirPlaceholder ∧ name ≠ dirParent

variable {name : Datum} {name_db name_db' : List Datum}

theorem stepOf_nil : stepOf [] = 1 := if_pos (.inl rfl)

theorem stepOf_parent : stepOf dirParent = Walk.parent := by
  rw [stepOf, if_neg (by decide), if_pos rfl]

theorem IsName.stepOf (h : IsName name) : stepOf name = Walk.child name := by
  rw [Neoip.stepOf, if_neg (not_or.2 ⟨h.1, h.2.1⟩), if_neg h.2.2]

@[simp] theorem walkOf_nil : walkOf [] = 1 := rfl

@[simp] theorem walkOf_cons (name : Datum) (name_db : List Datum) :
    walkOf (name :: name_db) = stepOf name * walkOf name_db := List.prod_cons

@[simp] theorem walkOf_append (name_db name_db' : List Datum) :
    walkOf (name_db ++ name_db') = walkOf name_db * walkOf name_db' := by
  rw [walkOf, List.map_append, List.prod_append]
  rfl

/-- The walk goes down along names. -/
theorem isName_of_mem_down (h : name ∈ (walkOf name_db).down) : IsName name := by
  induction name_db with
  | nil => cases h
  | cons first name_db ih =>
    rw [walkOf_cons] at h
    rcases Walk.mem_mul_down h with h | h
    · rw [stepOf] at h
      split_ifs at h with hnone hparent
      · cases h
      · cases h
      · obtain rfl := List.mem_singleton.1 h
        exact ⟨fun hnil => hnone (.inl hnil), fun hdot => hnone (.inr hdot), hparent⟩
    · exact ih h

/-! ### Each erasure keeps the walk -/

theorem walkOf_filter {p : Datum → Bool} (h : ∀ name, p name = false → stepOf name = 1)
    (name_db : List Datum) : walkOf (name_db.filter p) = walkOf name_db := by
  induction name_db with
  | nil => rfl
  | cons name name_db ih =>
    rw [List.filter_cons, walkOf_cons]
    cases hp : p name with
    | true => rw [if_pos rfl, walkOf_cons, ih]
    | false => rw [if_neg Bool.false_ne_true, ih, h name hp, one_mul]

theorem walkOf_filter_placeholder (name_db : List Datum) :
    walkOf (name_db.filter fun name => name ≠ dirPlaceholder) = walkOf name_db := by
  refine walkOf_filter (fun name hp => ?_) name_db
  rw [stepOf, if_pos (.inr (of_not_not (of_decide_eq_false hp)))]

theorem walkOf_eraseSepas (name_db : List Datum) :
    walkOf (eraseSepas name_db) = walkOf name_db := by
  cases name_db with
  | nil => rfl
  | cons name name_db =>
    rw [eraseSepas, walkOf_cons, walkOf_cons, walkOf_filter]
    intro name hp
    rw [stepOf, if_pos (.inl (of_not_not (of_decide_eq_false hp)))]

/-- The name which is erased with a parent is a step down. -/
theorem walkOf_eraseParent (hdot : dirPlaceholder ∉ name_db)
    (h : eraseParent name_db = some name_db') : walkOf name_db' = walkOf name_db := by
  fun_induction eraseParent name_db generalizing name_db' with
  | case1 name next rest hpair =>
    obtain rfl := Option.some.inj h
    have hname : IsName name :=
      ⟨hpair.1, fun heq => hdot (heq ▸ List.mem_cons_self ..), hpair.2.1⟩
    rw [walkOf_cons, walkOf_cons, hpair.2.2, stepOf_parent, hname.stepOf, ← mul_assoc,
      Walk.child_mul_parent, one_mul]
  | case2 name next rest hpair ih =>
    obtain ⟨l, hl, rfl⟩ := Option.map_eq_some_iff.1 h
    rw [walkOf_cons, walkOf_cons, ih (fun hmem => hdot (List.mem_cons_of_mem _ hmem)) hl]
  | case3 => cases h

theorem walkOf_eraseParents (fuel : ℕ) (hdot : dirPlaceholder ∉ name_db) :
    walkOf (eraseParents fuel name_db) = walkOf name_db := by
  induction fuel generalizing name_db with
  | zero => rfl
  | succ fuel ih =>
    rw [eraseParents]
    cases h : eraseParent name_db with
    | none => rfl
    | some l =>
      have hsub := (eraseParent_sublist h).1
      exact (ih fun hmem => hdot (hsub.subset hmem)).trans (walkOf_eraseParent hdot h)

/-! ### What is left -/

/-- Names of which none can be erased are their walk, written out. -/
theorem eq_walkOf (hnone : eraseParent name_db = none)
    (hnames : ∀ name ∈ name_db, name = dirParent ∨ IsName name) :
    name_db = List.replicate (walkOf name_db).up dirParent ++ (walkOf name_db).down := by
  induction name_db with
  | nil => rfl
  | cons name name_db ih =>
    have ih := ih (eraseParent_of_cons hnone) fun n hn => hnames n (List.mem_cons_of_mem _ hn)
    rcases hnames name (List.mem_cons_self ..) with rfl | hname
    · rw [walkOf_cons, stepOf_parent, Walk.parent_mul, List.replicate_succ, List.cons_append, ← ih]
    · -- the next name is no parent
      have hup : (walkOf name_db).up = 0 := by
        rcases hcase : (walkOf name_db).up with - | up
        · rfl
        · rw [hcase, List.replicate_succ, List.cons_append] at ih
          rw [ih, eraseParent, if_pos ⟨hname.1, hname.2.2, rfl⟩] at hnone
          cases hnone
      rw [hup, List.replicate_zero, List.nil_append] at ih
      rw [walkOf_cons, hname.stepOf, Walk.child_mul hup, List.replicate_zero, List.nil_append,
        ← ih]

/-- The names begin at the root. -/
def isRooted (name_db : List Datum) : Bool :=
  (name_db.filter fun name => name ≠ dirPlaceholder).head? = some []

/-- The names of a walk, from the root or not. -/
def namesOf (rooted : Bool) (w : Walk Datum) : List Datum :=
  if rooted then [] :: w.down
  else if w = 1 then [dirPlaceholder]
  else List.replicate w.up dirParent ++ w.down

theorem eraseParents_nil_cons (fuel : ℕ) (name_db : List Datum) :
    eraseParents fuel ([] :: name_db) = [] :: eraseParents fuel name_db := by
  induction fuel generalizing name_db with
  | zero => rfl
  | succ fuel ih =>
    have hcons : eraseParent ([] :: name_db) = (eraseParent name_db).map ([] :: ·) := by
      cases name_db with
      | nil => rfl
      | cons next rest => rw [eraseParent, if_neg (by simp)]
    rw [eraseParents, eraseParents, hcons]
    cases eraseParent name_db with
    | none => rfl
    | some l => exact ih l

/-- The parents at the head are erased, the names stay. -/
theorem dropWhile_walk (w : Walk Datum) (h : ∀ name ∈ w.down, IsName name) :
    (List.replicate w.up dirParent ++ w.down).dropWhile (fun name => name = dirParent) = w.down := by
  rw [List.dropWhile_append_of_pos]
  · cases hdown : w.down with
    | nil => rfl
    | cons name names =>
      have hname := h name (by rw [hdown]; exact List.mem_cons_self ..)
      rw [List.dropWhile_cons_of_neg (by simpa using hname.2.2)]
  · intro name hname
    exact decide_eq_true (List.eq_of_mem_replicate hname)

theorem eraseHeadParents_of_notMem (h : [] ∉ name_db) : eraseHeadParents name_db = name_db := by
  unfold eraseHeadParents
  split
  · exact absurd (List.mem_cons_self ..) h
  · rfl

theorem eraseNames_eq (name_db : List Datum) : eraseNames name_db =
    if isRooted name_db then [] :: (walkOf name_db).down
    else List.replicate (walkOf name_db).up dirParent ++ (walkOf name_db).down := by
  have hwalk := walkOf_filter_placeholder name_db
  have hdot : dirPlaceholder ∉ name_db.filter fun name => name ≠ dirPlaceholder :=
    fun hmem => absurd (List.of_mem_filter hmem) (by simp)
  rw [eraseNames, isRooted, ← hwalk]
  generalize (name_db.filter fun name => name ≠ dirPlaceholder) = l at hdot
  -- the names which are left in the tail are steps
  have hsteps : ∀ {l' : List Datum}, l'.Sublist l → [] ∉ l' → eraseParent l' = none →
      l' = List.replicate (walkOf l').up dirParent ++ (walkOf l').down := by
    intro l' hsub hnil hnone
    refine eq_walkOf hnone fun name hname => ?_
    by_cases hparent : name = dirParent
    · exact .inl hparent
    · refine .inr ⟨?_, ?_, hparent⟩
      · rintro rfl
        exact hnil hname
      · rintro rfl
        exact hdot (hsub.subset hname)
  rcases l with - | ⟨first, rest⟩
  · rfl
  · have hrest : (rest.filter fun name => name ≠ []).Sublist rest := List.filter_sublist
    have hnil : [] ∉ rest.filter fun name => name ≠ [] :=
      fun hmem => absurd (List.of_mem_filter hmem) (by simp)
    rw [← walkOf_eraseSepas (first :: rest), eraseSepas]
    generalize (rest.filter fun name => name ≠ []) = names at hrest hnil
    by_cases hroot : first = []
    · subst hroot
      obtain ⟨hsub, -, hnone⟩ := eraseParents_spec (Nat.le_succ names.length)
      have hdot' : dirPlaceholder ∉ names := fun hmem =>
        hdot (List.mem_cons_of_mem _ (hrest.subset hmem))
      have hsub' := hsub.trans (hrest.trans (List.sublist_cons_self [] rest))
      have heq := hsteps hsub' (fun hmem => hnil (hsub.subset hmem)) hnone
      rw [walkOf_eraseParents _ hdot'] at heq
      rw [List.length_cons, eraseParents_nil_cons, eraseHeadParents, heq,
        dropWhile_walk _ fun name hname => isName_of_mem_down hname, if_pos (by simp), walkOf_cons,
        stepOf_nil, one_mul]
    · have hsub := hrest.cons_cons first
      have hnil' : [] ∉ first :: names := fun hmem =>
        (List.mem_cons.1 hmem).elim (fun heq => hroot heq.symm) hnil
      have hdot' : dirPlaceholder ∉ first :: names := fun hmem => hdot (hsub.subset hmem)
      obtain ⟨hsub', -, hnone⟩ := eraseParents_spec (le_refl (first :: names).length)
      have hnil'' := fun hmem => hnil' (hsub'.subset hmem)
      have heq := hsteps (hsub'.trans hsub) hnil'' hnone
      rw [walkOf_eraseParents _ hdot'] at heq
      rw [eraseHeadParents_of_notMem hnil'', if_neg (by simpa using hroot)]
      exact heq

/-- **The normal form**: the walk of the names, written out. -/
theorem normalize_eq (name_db : List Datum) :
    normalize name_db = namesOf (isRooted name_db) (walkOf name_db) := by
  rw [normalize, eraseNames_eq, namesOf]
  cases isRooted name_db with
  | true => rfl
  | false =>
    simp only [Bool.false_eq_true, if_false, List.append_eq_nil_iff, List.replicate_eq_nil_iff,
      Walk.ext_iff, Walk.one_up, Walk.one_down]

/-! ### And back -/

theorem walkOf_down (h : ∀ name ∈ name_db, IsName name) : walkOf name_db = ⟨0, name_db⟩ := by
  induction name_db with
  | nil => rfl
  | cons name name_db ih =>
    have ih := ih fun n hn => h n (List.mem_cons_of_mem _ hn)
    rw [walkOf_cons, (h name (List.mem_cons_self ..)).stepOf, ih]
    exact Walk.child_mul rfl name

theorem walkOf_replicate_append (up : ℕ) (h : ∀ name ∈ name_db, IsName name) :
    walkOf (List.replicate up dirParent ++ name_db) = ⟨up, name_db⟩ := by
  induction up with
  | zero => exact walkOf_down h
  | succ up ih =>
    rw [List.replicate_succ, List.cons_append, walkOf_cons, stepOf_parent, ih]
    exact Walk.parent_mul _

/-- From the root the steps up are forgotten. -/
theorem walkOf_namesOf (rooted : Bool) {w : Walk Datum} (h : ∀ name ∈ w.down, IsName name) :
    walkOf (namesOf rooted w) = if rooted then ⟨0, w.down⟩ else w := by
  cases rooted with
  | true =>
    show walkOf ([] :: w.down) = _
    rw [walkOf_cons, stepOf_nil, one_mul, walkOf_down h]
    rfl
  | false =>
    show walkOf (if w = 1 then [dirPlaceholder] else _) = w
    split_ifs with hone
    · rw [hone]
      rfl
    · exact walkOf_replicate_append w.up h

theorem head?_namesOf (rooted : Bool) {w : Walk Datum} (h : ∀ name ∈ w.down, IsName name) :
    decide ((namesOf rooted w).head? = some []) = rooted := by
  cases rooted with
  | true => rfl
  | false =>
    apply decide_eq_false
    intro hhead
    have hmem : [] ∈ namesOf false w := List.mem_of_mem_head? hhead
    rw [namesOf, if_neg Bool.false_ne_true] at hmem
    split_ifs at hmem
    · exact absurd hmem (by decide)
    · rcases List.mem_append.1 hmem with hmem | hmem
      · exact absurd (List.eq_of_mem_replicate hmem) (by decide)
      · exact (h [] hmem).1 rfl

/-! ### Paths -/

namespace FilePath

variable {p other : FilePath}

def walk (p : FilePath) : Walk Datum := walkOf p.name_db

/-- The null path and the placeholder go nowhere. -/
def IsHere (p : FilePath) : Prop := p.isAbsolute = false ∧ p.walk = 1

theorem isName_of_mem_walk {name : Datum} (h : name ∈ p.walk.down) : IsName name :=
  isName_of_mem_down h

theorem isNull_iff : p.isNull = true ↔ p.drvletter = [] ∧ p.name_db = [] := by
  rw [isNull, Bool.and_eq_true, decide_eq_true_iff, decide_eq_true_iff]

theorem eq_null (h : p.isNull = true) : p = null :=
  FilePath.ext (isNull_iff.1 h).1 (isNull_iff.1 h).2

theorem isRooted_name_db (p : FilePath) : isRooted p.name_db = p.isAbsolute := by
  rcases p.null_or_normal with ⟨-, hnil⟩ | hnormal
  · rw [isAbsolute, hnil]
    rfl
  · rw [normalize_eq] at hnormal
    rw [isAbsolute, ← hnormal, head?_namesOf _ fun _ => isName_of_mem_down, hnormal]

theorem name_db_eq (h : p.isNull = false) : p.name_db = namesOf p.isAbsolute p.walk := by
  rcases p.null_or_normal with hnull | hnormal
  · rw [isNull_iff.2 hnull] at h
    cases h
  · rw [← isRooted_name_db, walk, ← normalize_eq, hnormal]

theorem normalize_name_db (hnull : p.isNull = false) : normalize p.name_db = p.name_db :=
  p.null_or_normal.resolve_left fun h => Bool.false_ne_true (hnull.symm.trans (isNull_iff.2 h))

theorem name_db_ne_nil (hnull : p.isNull = false) : p.name_db ≠ [] := by
  rw [← normalize_name_db hnull]
  exact normalize_ne_nil _

theorem isHere_null : null.IsHere := ⟨rfl, rfl⟩

/-- There is nothing but placeholders in a path which goes nowhere. -/
theorem isHere_iff :
    p.IsHere ↔ (p.name_db.filter fun name => name ≠ dirPlaceholder) = [] := by
  constructor
  · rintro ⟨habs, hwalk⟩
    cases hnull : p.isNull with
    | true => rw [eq_null hnull]; rfl
    | false =>
      rw [name_db_eq hnull, habs, hwalk]
      rfl
  · intro hfilter
    constructor
    · rw [← isRooted_name_db, isRooted, hfilter]
      rfl
    · rw [walk, ← walkOf_filter_placeholder, hfilter, walkOf_nil]

theorem drvletter_append (p other : FilePath) :
    (p.append other).drvletter = if p.isNull then other.drvletter else p.drvletter := by
  rw [append]
  split_ifs <;> rfl

theorem isRooted_append (p other : FilePath) : isRooted (p.name_db ++ other.name_db) = true ↔
    (p.IsHere ∧ other.isAbsolute = true) ∨ p.isAbsolute = true := by
  have hhere := isHere_iff (p := p)
  rw [← isRooted_name_db p, ← isRooted_name_db other, isRooted, isRooted, isRooted,
    List.filter_append, hhere]
  cases p.name_db.filter fun name => name ≠ dirPlaceholder with
  | nil => simp
  | cons name names => simp

/-- **Appending** goes on from the first path: it is rooted where the first one is, or where the
other one is when the first one goes nowhere. -/
theorem append_spec (p other : FilePath) :
    ((p.append other).isAbsolute = true ↔
      (p.IsHere ∧ other.isAbsolute = true) ∨ p.isAbsolute = true) ∧
    (p.append other).walk =
      if (p.append other).isAbsolute then ⟨0, (p.walk * other.walk).down⟩
      else p.walk * other.walk := by
  cases hnull : p.isNull with
  | true =>
    have happend : p.append other = other := if_pos hnull
    have hp := eq_null hnull
    subst hp
    have hwalk : null.walk = 1 := rfl
    rw [happend, hwalk, one_mul]
    refine ⟨⟨fun h => .inl ⟨isHere_null, h⟩, fun h => h.elim And.right nofun⟩, ?_⟩
    split_ifs with habs
    · cases hother : other.isNull with
      | true =>
        rw [eq_null hother] at habs
        cases habs
      | false =>
        have hwalk := walkOf_namesOf other.isAbsolute fun name => isName_of_mem_walk (p := other)
        rw [← name_db_eq hother, if_pos habs] at hwalk
        exact hwalk
    · rfl
  | false =>
    have hnames : (p.append other).name_db = normalize (p.name_db ++ other.name_db) := by
      rw [append, hnull, if_neg Bool.false_ne_true]
      rfl
    have hmem : ∀ name ∈ (walkOf (p.name_db ++ other.name_db)).down, IsName name :=
      fun name => isName_of_mem_down
    rw [normalize_eq] at hnames
    have habs : (p.append other).isAbsolute = isRooted (p.name_db ++ other.name_db) := by
      rw [isAbsolute, hnames, head?_namesOf _ hmem]
    refine ⟨by rw [habs]; exact isRooted_append p other, ?_⟩
    rw [walk, hnames, walkOf_namesOf _ hmem, habs, walkOf_append]
    rfl

/-! ### The names as a list of steps -/

/-- The names of a directory: the placeholder is none. -/
def dirNames (dirname : FilePath) : List Datum :=
  dirname.name_db.filter fun name => name ≠ dirPlaceholder

theorem up_eq_zero (h : p.isAbsolute = true) : p.walk.up = 0 := by
  cases hnull : p.isNull with
  | true =>
    rw [eq_null hnull] at h
    cases h
  | false =>
    have hwalk := walkOf_namesOf p.isAbsolute fun name => isName_of_mem_walk (p := p)
    rw [← name_db_eq hnull, if_pos h] at hwalk
    rw [walk, hwalk]

theorem dirNames_eq (dirname : FilePath) : dirname.dirNames =
    if dirname.isAbsolute then [] :: dirname.walk.down
    else List.replicate dirname.walk.up dirParent ++ dirname.walk.down := by
  have hkeep : ∀ names : List Datum, dirPlaceholder ∉ names →
      (names.filter fun name => name ≠ dirPlaceholder) = names := by
    intro names hnames
    refine List.filter_eq_self.2 fun name hname => decide_eq_true ?_
    rintro rfl
    exact hnames hname
  have hdown : dirPlaceholder ∉ dirname.walk.down := fun hmem => (isName_of_mem_walk hmem).2.1 rfl
  cases hnull : dirname.isNull with
  | true =>
    rw [eq_null hnull]
    rfl
  | false =>
    rw [dirNames, name_db_eq hnull, namesOf]
    split_ifs with habs hone
    · exact hkeep _ fun hmem => (List.mem_cons.1 hmem).elim (by decide) hdown
    · rw [hone]
      rfl
    · refine hkeep _ fun hmem => ?_
      rcases List.mem_append.1 hmem with hmem | hmem
      · exact absurd (List.eq_of_mem_replicate hmem) (by decide)
      · exact hdown hmem

theorem isNull_append (p other : FilePath) :
    (p.append other).isNull = true ↔ p.isNull = true ∧ other.isNull = true := by
  cases hnull : p.isNull with
  | true =>
    rw [append, if_pos hnull]
    exact ⟨fun h => ⟨rfl, h⟩, And.right⟩
  | false =>
    rw [append, hnull, if_neg Bool.false_ne_true]
    refine iff_of_false (fun h => ?_) fun h => Bool.false_ne_true h.1
    exact normalize_ne_nil _ (isNull_iff.1 h).2

theorem append_null (p : FilePath) : p.append null = p := by
  rw [append]
  split_ifs with hnull
  · exact (eq_null hnull).symm
  · have hnormal := p.null_or_normal.resolve_left fun h => hnull (isNull_iff.2 h)
    exact FilePath.ext rfl ((congrArg normalize (List.append_nil p.name_db)).trans hnormal)

end FilePath

end Neoip
