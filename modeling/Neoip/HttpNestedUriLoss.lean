/-
Neoip/HttpNestedUriLoss.lean

What is lost of nested uris which are not clean.

The characters of a path which are no separators become fewer where something is lost:
where an escape sequence is unescaped, where a name is taken back by a parent, where a
colon goes with an empty drive letter, and where a path ends early.  None of the steps
between the outer uri and the one which is got back adds any, so that when it is got
back none of them loses any; and the same goes for the inner uri, once it is known
that its host is a name of its own.

Main result: `nested_iff`.
-/
import Neoip.HttpNestedUriRound

namespace Neoip

/-! ### Weights -/

/-- The characters which are no separators. -/
def weight (str : Datum) : ℕ := str.countP fun c => !isSepa c

def namesWeight (names : List Datum) : ℕ := (names.map weight).sum

section Weight

variable {str rest : Datum} {names names' : List Datum} {name : Datum}

@[simp] theorem weight_nil : weight [] = 0 := rfl

@[simp] theorem weight_append (str rest : Datum) : weight (str ++ rest) = weight str + weight rest :=
  List.countP_append

theorem weight_cons (c : UInt8) (str : Datum) :
    weight (c :: str) = weight str + if isSepa c then 0 else 1 := by
  rw [weight, List.countP_cons]
  cases isSepa c <;> rfl

theorem weight_of_noSepa (h : ∀ c ∈ name, isSepa c = false) : weight name = name.length := by
  refine List.countP_eq_length.2 fun c hc => ?_
  rw [h c hc]
  rfl

theorem weight_le_of_sublist {str' : Datum} (h : str'.Sublist str) : weight str' ≤ weight str :=
  h.countP_le

@[simp] theorem namesWeight_cons (name : Datum) (names : List Datum) :
    namesWeight (name :: names) = weight name + namesWeight names := List.sum_cons

@[simp] theorem namesWeight_append (names names' : List Datum) :
    namesWeight (names ++ names') = namesWeight names + namesWeight names' := by
  rw [namesWeight, List.map_append, List.sum_append]
  rfl

theorem namesWeight_le_of_sublist (h : names'.Sublist names) :
    namesWeight names' ≤ namesWeight names := by
  induction h with
  | slnil => exact Nat.le_refl _
  | cons name _ ih => exact ih.trans (Nat.le_add_left _ _)
  | cons_cons name _ ih => exact Nat.add_le_add_left ih _

/-- Names of which none is empty are not fewer when their weight is not less. -/
theorem eq_of_namesWeight_le (h : names'.Sublist names) (hne : ∀ name ∈ names, 0 < weight name)
    (hle : namesWeight names ≤ namesWeight names') : names' = names := by
  induction h with
  | slnil => rfl
  | cons name hsub _ =>
    have hpos := hne name (List.mem_cons_self ..)
    have hsub := namesWeight_le_of_sublist hsub
    rw [namesWeight_cons] at hle
    omega
  | cons_cons name _ ih =>
    rw [namesWeight_cons, namesWeight_cons] at hle
    rw [ih (fun n hn => hne n (List.mem_cons_of_mem _ hn)) (by omega)]

theorem weight_joined (parts : List Datum) : weight (joined parts) = namesWeight parts := by
  induction parts with
  | nil => rfl
  | cons part parts ih =>
    rw [joined_cons, weight_cons, weight_append, ih, namesWeight_cons]
    rfl

theorem namesWeight_splitSepa (str : Datum) : namesWeight (splitSepa str) = weight str := by
  induction str with
  | nil => rfl
  | cons c str ih =>
    rw [weight_cons, ← ih, splitSepa, List.splitOnP_cons_eq_if_modifyHead, splitSepa]
    split_ifs with hc
    · rw [namesWeight_cons, weight_nil, Nat.zero_add, Nat.add_zero]
    · rcases hsplit : str.splitOnP isSepa with - | ⟨first, rest⟩
      · exact absurd hsplit (List.splitOnP_ne_nil _ _)
      · rw [List.modifyHead_cons, namesWeight_cons, namesWeight_cons, weight_cons, if_neg hc]
        omega

theorem namesWeight_flatMap_splitSepa (parts : List Datum) :
    namesWeight (parts.flatMap splitSepa) = namesWeight parts := by
  induction parts with
  | nil => rfl
  | cons part parts ih =>
    rw [List.flatMap_cons, namesWeight_append, namesWeight_splitSepa, ih, namesWeight_cons]

/-- Each escape sequence is three characters, for one at most. -/
theorem weight_unescape (str : Datum) : weight (unescape str) ≤ weight str ∧
    (weight (unescape str) = weight str → unescape str = str) := by
  fun_induction unescape str with
  | case1 c a b rest h ih =>
    obtain ⟨rfl, ha, hb⟩ := h
    have hsepa : ∀ d, isXdigit d = true → isSepa d = false := by
      intro d hd
      rw [Bool.eq_false_iff]
      intro hsepa
      rw [isSepa, Bool.or_eq_true, decide_eq_true_iff, decide_eq_true_iff] at hsepa
      rcases hsepa with rfl | rfl
      · exact absurd hd (by decide)
      · exact absurd hd (by decide)
    have hval : (if isSepa (xdigitVal a * 16 + xdigitVal b) = true then 0 else 1) ≤ 1 := by
      split_ifs <;> omega
    simp only [weight_cons, hsepa a ha, hsepa b hb, show isSepa 37 = false from rfl,
      Bool.false_eq_true, if_false]
    exact ⟨by omega, by omega⟩
  | case2 c a b rest h ih =>
    rw [weight_cons, weight_cons c]
    refine ⟨by omega, fun heq => ?_⟩
    rw [ih.2 (by omega)]
  | case3 c rest _ ih =>
    rw [weight_cons, weight_cons c]
    refine ⟨by omega, fun heq => ?_⟩
    rw [ih.2 (by omega)]
  | case4 => exact ⟨Nat.le_refl _, fun _ => rfl⟩

/-- A list whose members do not become lighter, as a whole, is left alone. -/
theorem namesWeight_map {f : Datum → Datum} (h : ∀ name ∈ names, weight (f name) ≤ weight name) :
    namesWeight (names.map f) ≤ namesWeight names ∧
      (namesWeight names ≤ namesWeight (names.map f) →
        ∀ name ∈ names, weight (f name) = weight name) := by
  induction names with
  | nil => exact ⟨Nat.le_refl _, fun _ => nofun⟩
  | cons first names ih =>
    obtain ⟨hle, heq⟩ := ih fun n hn => h n (List.mem_cons_of_mem _ hn)
    have hfirst := h first (List.mem_cons_self ..)
    rw [List.map_cons, namesWeight_cons, namesWeight_cons]
    refine ⟨by omega, fun hsum name hname => ?_⟩
    rcases List.mem_cons.1 hname with rfl | hname
    · omega
    · exact heq (by omega) name hname

/-- The names a walk leads along are those of its steps which were not taken back. -/
theorem walkOf_down_sublist (names : List Datum) : (walkOf names).down.Sublist names := by
  induction names with
  | nil => exact List.Sublist.refl _
  | cons name names ih =>
    have hstep : (stepOf name).down.Sublist [name] := by
      rw [stepOf]
      split_ifs
      · exact List.nil_sublist _
      · exact List.nil_sublist _
      · exact List.Sublist.refl _
    rw [walkOf_cons, Walk.mul_down]
    exact ((List.take_sublist _ _).trans hstep).append ih

end Weight

namespace HttpNestedUri

open HttpUri

variable {u outter_uri inner_uri nested_uri : HttpUri} {before : List Datum}

/-! ### Where the separator was found -/

theorem namesWeight_nameParts (names : List Datum) :
    namesWeight (FilePath.nameParts names) = namesWeight names := by
  rw [FilePath.nameParts]
  split_ifs with h
  · rw [h]
    rfl
  · rfl

/-- The string in front of the separator is that of a uri, so the separator is in the path, or
behind it. -/
theorem exists_cut (hscheme : u.scheme = .http) (hnull : u.path.isNull = false)
    (h : parseOutter u ≠ none) :
    u.hostportStr ≠ httpNameEsc ∧
      ((∃ before first rest, u.names = before ++ httpName :: first :: rest ∧ httpName ∉ before) ∨
        ∃ n pos, findSubstr separatorEsc (tailStr u) = some n ∧
          findSubstr separatorEsc u.toString = some pos ∧ u.toString.take pos =
            httpPrefix ++ u.hostportStr ++
              (joined ((FilePath.nameParts u.names).map (escapeNotIn pathCharset)) ++
                (tailStr u).take n)) := by
  have hsep : separatorEsc = 47 :: (httpNameEsc ++ [47]) := by decide
  obtain ⟨pos, hpos⟩ : ∃ pos, findSubstr separatorEsc u.toString = some pos := by
    rw [← Option.ne_none_iff_exists']
    intro hnone
    rw [parseOutter, hnone] at h
    exact h rfl
  have hfind := hpos
  rw [toString_eq hscheme hnull, hsep, findSubstr_append_of_notMem (by decide)] at hfind
  obtain ⟨pos', hpos', rfl⟩ := Option.map_eq_some_iff.1 hfind
  rcases of_findSubstr_joined (by decide) (notMem_uriParts hnull) (tailStr_spec u) hpos' with
    ⟨front, after, hparts, hne, hfront, rfl⟩ | ⟨n, hn, rfl, hlast⟩
  · rw [uriParts] at hparts
    rcases front with - | ⟨empty, - | ⟨hostport, front⟩⟩
    · exact absurd (List.cons.inj hparts).1 (by decide)
    · -- the separator is the host: there is no uri in front of it
      exfalso
      obtain ⟨rfl, hparts⟩ := List.cons.inj hparts
      have htake : u.toString.take 6 = [104, 116, 116, 112, 58, 47] := by
        rw [toString_eq hscheme hnull]
        rfl
      have hnone : HttpUri.ofString [104, 116, 116, 112, 58, 47] = none := by decide
      refine h ?_
      rw [parseOutter, hpos]
      show ((HttpUri.ofString (u.toString.take 6)).bind _) = none
      rw [htake, hnone]
      rfl
    · obtain ⟨hhostport, htail⟩ := List.cons.inj (List.cons.inj hparts).2
      subst hhostport
      refine ⟨fun heq => hfront (heq ▸ List.mem_cons_of_mem _ (List.mem_cons_self ..)), .inl ?_⟩
      obtain ⟨before, rest, hnames, rfl, hrest⟩ := List.map_eq_append_iff.1
        (show _ = front ++ httpNameEsc :: after from htail)
      obtain ⟨name, rest, rfl, hname, rfl⟩ := List.map_eq_cons_iff.1 hrest
      obtain rfl := escape_inj hname
      obtain ⟨first, rest, rfl⟩ : ∃ first rest', rest = first :: rest' :=
        List.exists_cons_of_ne_nil fun hnil => hne (by rw [hnil]; rfl)
      have hnil : u.names ≠ [] := by
        intro hnil
        have hmem : httpName ∈ FilePath.nameParts u.names := by
          rw [hnames]
          exact List.mem_append_right _ (List.mem_cons_self ..)
        rw [hnil] at hmem
        exact absurd (List.mem_singleton.1 hmem) (by decide)
      rw [FilePath.nameParts_of_ne_nil hnil] at hnames
      refine ⟨before, first, rest, hnames, fun hmem => hfront ?_⟩
      exact List.mem_cons_of_mem _ (List.mem_cons_of_mem _ (List.mem_map_of_mem hmem))
  · have hparts : (FilePath.nameParts u.names).map (escapeNotIn pathCharset) ≠ [] := by
      rw [Ne, List.map_eq_nil_iff, FilePath.nameParts]
      by_cases hnil : u.names = []
      · rw [if_pos hnil]
        exact List.cons_ne_nil _ _
      · rwa [if_neg hnil]
    refine ⟨fun heq => hlast ?_, .inr ⟨n, _, hn, hpos, ?_⟩⟩
    · rw [uriParts, List.dropLast_cons_of_ne_nil (List.cons_ne_nil _ _),
        List.dropLast_cons_of_ne_nil hparts, heq]
      exact List.mem_cons_of_mem _ (List.mem_cons_self ..)
    · have hlen : (joined (uriParts u)).length + n + httpName.length =
          (httpName ++ joined (uriParts u)).length + n := by
        rw [List.length_append]
        omega
      rw [hlen, toString_eq hscheme hnull, ← List.append_assoc, List.take_length_add_append,
        ← List.append_assoc _ (joined _), httpPrefix_append]
      rfl

/-- **How an outer uri was got back**: from the names before `http:`, or from all names when the
separator is behind the path. -/
theorem of_parseOutter (hscheme : u.scheme = .http) (hnull : u.path.isNull = false)
    (h : parseOutter u = some outter_uri) :
    u.hostportStr ≠ httpNameEsc ∧ ∃ before,
      (∃ vars, HttpUri.ofString (outterString u.hostportStr
        ([47] :: (before.map pathName).takeWhile notEsc) vars) = some outter_uri) ∧
      ((∃ first rest, u.names = before ++ httpName :: first :: rest ∧ httpName ∉ before) ∨
        before = u.names ∧ 47 ∈ tailStr u) := by
  have hne : parseOutter u ≠ none := by
    rw [h]
    exact Option.some_ne_none _
  obtain ⟨hhostport, hcut⟩ := exists_cut hscheme hnull hne
  refine ⟨hhostport, ?_⟩
  rcases hcut with ⟨before, first, rest, hnames, hbefore⟩ | ⟨n, pos, hn, hpos, htake⟩
  · rw [parseOutter_eq hscheme hnull hnames (List.cons_ne_nil _ _) hbefore hhostport] at h
    obtain ⟨vars, -, hvars⟩ := Option.bind_eq_some_iff.1 h
    exact ⟨before, ⟨vars, hvars⟩, .inl ⟨first, rest, hnames, hbefore⟩⟩
  · have htail : ∀ c, ((tailStr u).take n).head? = some c → isPathEnd c = true := by
      intro c hc
      rw [List.head?_take] at hc
      split_ifs at hc
      exact head?_tailStr hc
    obtain ⟨tmp, htmp, -, -, -, hpath, -⟩ := ofString_hostport u .http _
      fun c hc => (head?_joined hc).imp_right (htail c)
    obtain ⟨-, -, hdb⟩ := parsePath_joined
      ((FilePath.nameParts u.names).map (escapeNotIn pathCharset)) _ isPathEnd_escape htail
    have hsepa : NoSepa (FilePath.nameParts u.names) := by
      intro name hname
      rcases FilePath.mem_nameParts hname with rfl | hname
      · simp
      · exact noSepa_names hnull name hname
    rw [← hpath, map_unescape_escape, flatMap_splitSepa hsepa, FilePath.walkOf_nameParts,
      walkOf_down fun _ => isName_of_mem_names] at hdb
    rw [parseOutter, hpos, Option.bind_some, htake] at h
    obtain ⟨tmp', htmp', h⟩ := Option.bind_eq_some_iff.1 h
    obtain rfl := Option.some.inj (htmp.symm.trans htmp')
    rw [pathNames_eq hdb] at h
    obtain ⟨vars, -, hvars⟩ := Option.bind_eq_some_iff.1 h
    refine ⟨u.names, ⟨vars, hvars⟩, .inr ⟨rfl, ?_⟩⟩
    rw [eq_of_findSubstr hn]
    exact List.mem_append_right _ (List.mem_append_left _ (List.mem_cons_self ..))

/-! ### What the outer uri weighs -/

/-- The names of a path are no heavier than its string, unescaped. -/
theorem exists_parsePath (str : Datum) : ∃ names, (parsePath str).1.name_db = [] :: names ∧
    namesWeight names ≤ weight (unescape (str.takeWhile fun c => !isPathEnd c)) := by
  rw [parsePath]
  split_ifs with hhead
  · obtain ⟨tail, rfl⟩ : ∃ tail, str = 47 :: tail :=
      ⟨str.tail, (List.cons_head?_tail hhead).symm⟩
    rw [List.takeWhile_cons_of_pos rfl, unescape_cons_of_ne (by decide)]
    refine ⟨_, (FilePath.ofString_sepa _).2, ?_⟩
    have hle := namesWeight_le_of_sublist
      (walkOf_down_sublist (splitSepa (unescape (tail.takeWhile fun c => !isPathEnd c))))
    rw [namesWeight_splitSepa] at hle
    rw [weight_cons]
    exact hle.trans (Nat.le_add_right _ _)
  · exact ⟨[], (FilePath.ofString_sepa []).2, Nat.zero_le _⟩

/-- A name weighs no more as the string of a path, and less without its first colon. -/
theorem weight_pathName {name : Datum} (hne : name ≠ []) (hsepa : ∀ c ∈ name, isSepa c = false) :
    weight (pathName name) ≤ weight name ∧
      (weight (pathName name) = weight name → name.head? ≠ some 58) := by
  rcases pathName_cases hne hsepa with ⟨hhead, heq | heq⟩ | ⟨rest, rfl, heq | ⟨heq, rfl⟩⟩
  · rw [heq]
    exact ⟨Nat.le_refl _, fun _ => hhead⟩
  · rw [heq, weight_append]
    exact ⟨Nat.le_refl _, fun _ => hhead⟩
  · rw [heq, weight_cons, show isSepa 58 = false from rfl, if_neg Bool.false_ne_true]
    exact ⟨Nat.le_succ _, fun h => absurd h (Nat.ne_of_lt (Nat.lt_succ_self _))⟩
  · rw [heq]
    exact ⟨by decide, fun h => absurd h (by decide)⟩

/-- The outer uri which was got back: its scheme, its port, and what its names weigh at most. -/
theorem outter_got_back {path_names vars : List Datum} (hscheme : u.scheme = .http)
    (h : HttpUri.ofString (outterString u.hostportStr ([47] :: path_names) vars) = some outter_uri) :
    outter_uri.scheme = .http ∧ outter_uri.host = u.host ∧ outter_uri.port = u.portBack ∧
      namesWeight outter_uri.names ≤ namesWeight path_names := by
  rw [outterString_eq] at h
  set parts := ([47] :: path_names) ++ if vars ≠ [] then [[]] else [] with hparts
  set query := (if vars ≠ [] then 63 :: [38].intercalate vars else [] : Datum) with hquery
  have hhead : ∀ c, query.head? = some c → isPathEnd c = true := by
    intro c hc
    rw [hquery] at hc
    split_ifs at hc
    · obtain rfl := Option.some.inj hc
      rfl
    · cases hc
  obtain ⟨v, hv, hvscheme, hvhost, hvport, hvpath, -⟩ := ofString_hostport u .http
    (joined parts ++ query) fun c hc => (head?_joined hc).imp_right (hhead c)
  obtain rfl := Option.some.inj (hv.symm.trans h)
  obtain ⟨names, hnames, hweight⟩ := exists_parsePath (joined parts ++ query)
  rw [← hvpath] at hnames
  refine ⟨hvscheme, hvhost, by rw [hvport, portBack, hscheme], ?_⟩
  rw [names_eq hnames]
  have hlast : namesWeight (if vars ≠ [] then [[]] else []) = 0 := by split_ifs <;> rfl
  have hcut : weight ((joined parts ++ query).takeWhile fun c => !isPathEnd c) ≤
      weight (joined parts) := by
    have hend : ∀ c, query.head? = some c → (!isPathEnd c) = false := fun c hc => by
      rw [hhead c hc]
      rfl
    rw [(takeWhile_append_dropWhile_append (joined parts) hend).1]
    exact weight_le_of_sublist (List.takeWhile_sublist _)
  have hjoined : weight (joined parts) = namesWeight path_names := by
    rw [weight_joined, hparts, namesWeight_append, hlast, namesWeight_cons]
    exact Nat.zero_add _
  exact hweight.trans ((weight_unescape _).1.trans (hcut.trans hjoined.le))

/-- Where the path ends early, something is cut off. -/
theorem weight_takeWhile_lt {str : Datum} {c : UInt8} (hc : c ∈ str) (hend : isPathEnd c = true)
    (rest : Datum) : weight ((str ++ rest).takeWhile fun c => !isPathEnd c) < weight str := by
  induction str with
  | nil => cases hc
  | cons d str ih =>
    rw [List.cons_append, List.takeWhile_cons, weight_cons]
    by_cases hd : isPathEnd d = true
    · have hsepa : isSepa d = false := by
        rw [isPathEnd, Bool.or_eq_true, decide_eq_true_iff, decide_eq_true_iff] at hd
        rcases hd with rfl | rfl <;> rfl
      rw [hd, hsepa]
      exact Nat.succ_pos _
    · have hlt := ih ((List.mem_cons.1 hc).resolve_left fun heq => hd (heq ▸ hend))
      rw [Bool.eq_false_iff.2 hd, Bool.not_false, if_pos rfl, weight_cons]
      exact Nat.add_lt_add_right hlt _

/-! ### Nothing is lost of the host of the inner uri -/

/-- A name of a string which ends with a port has no longer a host than what is before the port,
and a shorter one where a separator is. -/
theorem length_host_le {host port name : Datum} (hport : port.head? = none ∨ port.head? = some 58)
    (hsepa : ∀ c ∈ port, isSepa c = false) (h : name ∈ splitSepa (host ++ port)) :
    (name.takeWhile fun c => !isUriDelim c).length ≤ host.length ∧
      ((∃ c ∈ host, isSepa c = true) →
        (name.takeWhile fun c => !isUriDelim c).length < host.length) := by
  induction host generalizing name with
  | nil =>
    rw [List.nil_append, splitSepa_eq_singleton hsepa, List.mem_singleton] at h
    subst h
    refine ⟨?_, by simp⟩
    rcases name with - | ⟨c, port⟩
    · exact Nat.le_refl _
    · obtain rfl := Option.some.inj (hport.resolve_left (by simp))
      exact Nat.le_refl _
  | cons c host ih =>
    rw [List.cons_append, splitSepa, List.splitOnP_cons_eq_if_modifyHead] at h
    split_ifs at h with hc
    · rcases List.mem_cons.1 h with rfl | h
      · exact ⟨Nat.zero_le _, fun _ => Nat.succ_pos _⟩
      · have hle := (ih h).1
        exact ⟨hle.trans (Nat.le_succ _), fun _ => Nat.lt_succ_of_le hle⟩
    · rcases hsplit : (host ++ port).splitOnP isSepa with - | ⟨first, rest⟩
      · exact absurd hsplit (List.splitOnP_ne_nil _ _)
      · rw [hsplit, List.modifyHead_cons] at h
        rw [splitSepa, hsplit] at ih
        rcases List.mem_cons.1 h with rfl | h
        · obtain ⟨hle, hlt⟩ := ih (List.mem_cons_self ..)
          rw [List.takeWhile_cons, List.length_cons]
          split_ifs
          · rw [List.length_cons]
            refine ⟨Nat.succ_le_succ hle, ?_⟩
            rintro ⟨d, hd, hsepa⟩
            refine Nat.succ_lt_succ (hlt ⟨d, ?_, hsepa⟩)
            refine (List.mem_cons.1 hd).resolve_left ?_
            rintro rfl
            exact hc hsepa
          · exact ⟨Nat.zero_le _, fun _ => Nat.succ_pos _⟩
        · obtain ⟨hle, hlt⟩ := ih (List.mem_cons_of_mem _ h)
          exact ⟨hle.trans (Nat.le_succ _), fun _ => Nat.lt_succ_of_le hle⟩

section Inner

variable {first : Datum} {rest : List Datum}

theorem parseScheme_httpPrefix (str : Datum) :
    parseScheme (httpPrefix ++ str) = (some .http, str) := by
  have hcolon : 58 ∉ HttpScheme.http.toString := by decide
  rw [parseScheme, httpPrefix, List.append_assoc, schemeSepa, findSubstr_append hcolon]
  rfl

/-- What the constructor consumes for the port is in front of the variables. -/
theorem exists_parsePort (default_port : ℕ) (str : Datum) {query : Datum}
    (hquery : ∀ c, query.head? = some c → isPathEnd c = true) :
    ∃ tail, tail.Sublist str ∧ (parsePort default_port (str ++ query)).2 = tail ++ query := by
  have hend : ∀ c, query.head? = some c → Bencode.isDigit c = false ∧ c ≠ 58 := by
    intro c hc
    have hend := hquery c hc
    rw [isPathEnd, Bool.or_eq_true, decide_eq_true_iff, decide_eq_true_iff] at hend
    rcases hend with rfl | rfl
    · decide
    · decide
  rw [parsePort]
  split_ifs with hhead
  · cases str with
    | nil => exact absurd rfl (hend 58 hhead).2
    | cons c str =>
      refine ⟨str.dropWhile Bencode.isDigit,
        (List.dropWhile_sublist _).trans (List.sublist_cons_self c str), ?_⟩
      exact (takeWhile_append_dropWhile_append str fun c hc => (hend c hc).1).2
  · exact ⟨str, List.Sublist.refl _, rfl⟩

/-- The host is read of the first name, and what it weighs with the path is in the names. -/
theorem host_of_ofString (hsepa : ∀ c ∈ first, isSepa c = false)
    (h : HttpUri.ofString (httpPrefix ++ (first ++ (joined rest ++ rawQuery inner_uri.var))) =
      some inner_uri) :
    inner_uri.host = first.takeWhile (fun c => !isUriDelim c) ∧
      namesWeight inner_uri.names + inner_uri.host.length ≤ namesWeight (first :: rest) := by
  have hdelim : ∀ c, (joined rest ++ rawQuery inner_uri.var).head? = some c →
      (!isUriDelim c) = false := by
    intro c hc
    rcases head?_joined hc with rfl | hc
    · rfl
    · have hend := head?_rawQuery hc
      rw [isPathEnd, Bool.or_eq_true, decide_eq_true_iff, decide_eq_true_iff] at hend
      rcases hend with rfl | rfl
      · rfl
      · rfl
  obtain ⟨str2parse, hparse, hhost, hpath⟩ := of_ofString h
  rw [parseScheme_httpPrefix] at hparse
  obtain rfl : first ++ (joined rest ++ rawQuery inner_uri.var) = str2parse :=
    (Prod.ext_iff.1 hparse).2
  obtain ⟨htake, hdrop⟩ := takeWhile_append_dropWhile_append first hdelim
  rw [htake] at hhost
  rw [hdrop, ← List.append_assoc] at hpath
  refine ⟨hhost, ?_⟩
  obtain ⟨tail, htail, hport⟩ := exists_parsePort inner_uri.scheme.defaultPort
    (first.dropWhile (fun c => !isUriDelim c) ++ joined rest) fun c => head?_rawQuery (c := c)
  obtain ⟨names, hnames, hweight⟩ := exists_parsePath (tail ++ rawQuery inner_uri.var)
  rw [hport] at hpath
  rw [← hpath] at hnames
  rw [names_eq hnames]
  have hend : ∀ c, (rawQuery inner_uri.var).head? = some c → (!isPathEnd c) = false :=
    fun c hc => by
      rw [head?_rawQuery hc]
      rfl
  have hcut : weight ((tail ++ rawQuery inner_uri.var).takeWhile fun c => !isPathEnd c) ≤
      weight tail := by
    rw [(takeWhile_append_dropWhile_append tail hend).1]
    exact weight_le_of_sublist (List.takeWhile_sublist _)
  have htail := weight_le_of_sublist htail
  rw [weight_append, weight_joined] at htail
  -- the weight which the host does not have is left to the names
  have hfirst : weight first = inner_uri.host.length +
      weight (first.dropWhile fun c => !isUriDelim c) := by
    rw [hhost, ← weight_of_noSepa fun c hc => hsepa c ((List.takeWhile_sublist _).subset hc),
      ← weight_append, List.takeWhile_append_dropWhile]
  have hle := (weight_unescape ((tail ++ rawQuery inner_uri.var).takeWhile fun c =>
    !isPathEnd c)).1
  rw [namesWeight_cons]
  omega

/-- **The host of the inner uri** was a name of its own, and it is the first of the names. -/
theorem first_eq_hostportStr (hsub : (first :: rest).Sublist
      (splitSepa (unescape inner_uri.hostportStr) ++ inner_uri.names))
    (hsepa : ∀ c ∈ first, isSepa c = false)
    (h : HttpUri.ofString (httpPrefix ++ (first ++ (joined rest ++ rawQuery inner_uri.var))) =
      some inner_uri) :
    first = inner_uri.hostportStr ∧ rest.Sublist inner_uri.names ∧
      unescape inner_uri.host = inner_uri.host ∧ 92 ∉ inner_uri.host := by
  obtain ⟨hhost, hweight⟩ := host_of_ofString hsepa h
  have hpos : 0 < inner_uri.host.length := List.length_pos_of_ne_nil inner_uri.host_ne
  obtain ⟨front, names, hcut, hfront, hnames⟩ := List.sublist_append_iff.1 hsub
  rcases front with - | ⟨name, front⟩
  · -- all of the names are those of the path, which weigh too little
    rw [List.nil_append] at hcut
    have hle := namesWeight_le_of_sublist hnames
    rw [← hcut] at hle
    omega
  obtain ⟨rfl, rfl⟩ := List.cons.inj hcut
  have hmem : first ∈ splitSepa (unescape inner_uri.host ++ inner_uri.portStr) := by
    rw [← unescape_hostportStr_eq]
    exact hfront.subset (List.mem_cons_self ..)
  have hport : inner_uri.portStr.head? = none ∨ inner_uri.portStr.head? = some 58 := by
    rw [portStr]
    split_ifs
    · exact .inr rfl
    · exact .inl rfl
  obtain ⟨hle, hlt⟩ := length_host_le hport (fun c hc => (portStr_spec inner_uri c hc).1) hmem
  rw [← hhost] at hle hlt
  have hunescape : unescape inner_uri.host = inner_uri.host := by
    by_contra hne
    have := length_unescape_lt hne
    omega
  rw [hunescape] at hlt
  have hsepa_host : 92 ∉ inner_uri.host := fun hmem =>
    Nat.lt_irrefl _ (hlt ⟨92, hmem, rfl⟩)
  rw [unescape_hostportStr hunescape, splitSepa_eq_singleton (isSepa_hostportStr hsepa_host)]
    at hfront
  obtain ⟨rfl, hnil⟩ : first = inner_uri.hostportStr ∧ front = [] := by
    cases hfront with
    | cons _ hsub => exact absurd hsub.length_le (by simp)
    | cons_cons _ hsub => exact ⟨rfl, List.sublist_nil.1 hsub⟩
  subst hnil
  exact ⟨rfl, hnames, hunescape, hsepa_host⟩

theorem weight_pos {name : Datum} (hname : IsName name) (hsepa : ∀ c ∈ name, isSepa c = false) :
    0 < weight name := by
  rw [weight_of_noSepa hsepa]
  exact List.length_pos_of_ne_nil hname.1

/-- Names which the unescaping of their string does not make lighter. -/
theorem unescape_of_weight {names : List Datum}
    (hle : namesWeight names ≤ weight (unescape (joined names))) :
    ∀ name ∈ names, unescape name = name := by
  rw [unescape_joined, weight_joined] at hle
  exact fun name hname => (weight_unescape name).2
    ((namesWeight_map fun name _ => (weight_unescape name).1).2 hle name hname)

/-- **The names of the inner uri** are all there, and clean. -/
theorem names_of_ofString (hnull : inner_uri.path.isNull = false)
    (hscheme : inner_uri.scheme = .http) (hrest : rest.Sublist inner_uri.names)
    (h : HttpUri.ofString (httpPrefix ++ (inner_uri.hostportStr ++
      (joined rest ++ rawQuery inner_uri.var))) = some inner_uri) :
    rest = inner_uri.names ∧ CleanPort inner_uri ∧ (∀ name ∈ inner_uri.names, CleanName name) ∧
      (parseQuery (rawQuery inner_uri.var)).1 = inner_uri.var := by
  obtain ⟨v, hv, -, -, hport, hpath, hvar, -⟩ := ofString_hostport inner_uri .http
    (joined rest ++ rawQuery inner_uri.var) fun c hc => (head?_joined hc).imp_right head?_rawQuery
  rw [← List.append_assoc httpPrefix] at h
  obtain rfl := Option.some.inj (hv.symm.trans h)
  obtain ⟨names, hnames, hweight⟩ := exists_parsePath (joined rest ++ rawQuery v.var)
  rw [← hpath] at hnames
  rw [← names_eq hnames] at hweight
  have hend : ∀ c, (rawQuery v.var).head? = some c → (!isPathEnd c) = false := fun c hc => by
    rw [head?_rawQuery hc]
    rfl
  rw [(takeWhile_append_dropWhile_append (joined rest) hend).1] at hweight
  have hcut := weight_le_of_sublist
    (List.takeWhile_sublist (l := joined rest) fun c => !isPathEnd c)
  have hunescape := (weight_unescape ((joined rest).takeWhile fun c => !isPathEnd c)).1
  rw [weight_joined] at hcut
  obtain rfl : rest = v.names := by
    refine eq_of_namesWeight_le hrest (fun name hname => ?_) (by omega)
    exact weight_pos (isName_of_mem_names hname) (noSepa_names hnull name hname)
  -- nothing is cut off
  have hall : ∀ c ∈ joined v.names, isPathEnd c = false := by
    intro c hc
    rw [Bool.eq_false_iff]
    intro hc'
    have hlt := weight_takeWhile_lt hc hc' []
    rw [List.append_nil, weight_joined] at hlt
    omega
  have hwhole : (joined v.names).takeWhile (fun c => !isPathEnd c) = joined v.names := by
    refine List.takeWhile_eq_self_iff.2 fun c hc => ?_
    rw [hall c hc]
    rfl
  rw [hwhole] at hweight
  have hclean : ∀ name ∈ v.names, CleanName name := fun name hname =>
    ⟨unescape_of_weight hweight name hname, fun c hc =>
      hall c (List.mem_flatMap.2 ⟨name, hname, List.mem_cons_of_mem _ hc⟩)⟩
  refine ⟨rfl, ?_, hclean, ?_⟩
  · rw [← hscheme] at hport
    exact v.portBack_eq_iff.1 hport.symm
  · rw [(parsePath_joined v.names _ (fun name hname => (hclean name hname).2)
      fun c => head?_rawQuery).1] at hvar
    exact hvar.symm

end Inner

/-! ### Nothing is lost of the variables of the inner uri -/

theorem sublist_of_mem_splitOnP {p : UInt8 → Bool} {str part : Datum}
    (h : part ∈ str.splitOnP p) : part.Sublist str := by
  induction str generalizing part with
  | nil =>
    rw [List.splitOnP_nil] at h
    rw [List.mem_singleton.1 h]
  | cons c str ih =>
    rw [List.splitOnP_cons_eq_if_modifyHead] at h
    split_ifs at h with hc
    · rcases List.mem_cons.1 h with rfl | h
      · exact List.nil_sublist _
      · exact (ih h).trans (List.sublist_cons_self c str)
    · rcases hsplit : str.splitOnP p with _ | ⟨first, rest⟩
      · exact absurd hsplit (List.splitOnP_ne_nil p str)
      · rw [hsplit] at h ih
        rw [List.modifyHead_cons] at h
        rcases List.mem_cons.1 h with rfl | h
        · exact (ih (List.mem_cons_self ..)).cons_cons c
        · exact (ih (List.mem_cons_of_mem _ h)).trans (List.sublist_cons_self c str)

section Var

variable {part : Datum} {item : StrvarItem}

/-- A variable is no longer than the string it was read of; when it is no shorter, it is clean but
for what cuts the string. -/
theorem length_rawVar_parseVar (part : Datum) :
    (rawVar (parseVar part)).length ≤ part.length ∧
      (part.length ≤ (rawVar (parseVar part)).length →
        rawVar (parseVar part) = part ∧ 61 ∉ (parseVar part).key ∧
          unescape (parseVar part).key = (parseVar part).key ∧
            unescape (parseVar part).val = (parseVar part).val) := by
  have hsplit := List.takeWhile_append_dropWhile (p := fun c => decide (c ≠ 61)) (l := part)
  have hkey : 61 ∉ part.takeWhile (fun c => decide (c ≠ 61)) := by
    intro hmem
    have hall := List.all_eq_true.1
      (List.all_takeWhile (p := fun c => decide (c ≠ 61)) (l := part)) 61 hmem
    simp at hall
  have hhead := head?_dropWhile (fun c => decide (c ≠ 61)) part
  rw [parseVar]
  generalize part.takeWhile (fun c => decide (c ≠ 61)) = key at hsplit hkey
  generalize part.dropWhile (fun c => decide (c ≠ 61)) = tail at hsplit hhead
  subst hsplit
  have hkey_le := length_unescape_le key
  have hkey_eq : key.length ≤ (unescape key).length → unescape key = key := fun hle => by
    by_contra hne
    exact absurd (length_unescape_lt hne) (Nat.not_lt.2 hle)
  rcases tail with - | ⟨c, val⟩
  · rw [rawVar, List.tail_nil, unescape_nil, if_neg (not_not.2 rfl), List.append_nil,
      List.append_nil]
    refine ⟨hkey_le, fun hle => ?_⟩
    rw [hkey_eq hle]
    exact ⟨rfl, hkey, hkey_eq hle, rfl⟩
  · obtain rfl : c = 61 := by simpa using hhead c rfl
    have hval_le := length_unescape_le val
    have hval_eq : val.length ≤ (unescape val).length → unescape val = val := fun hle => by
      by_contra hne
      exact absurd (length_unescape_lt hne) (Nat.not_lt.2 hle)
    rw [rawVar, List.tail_cons]
    split_ifs with hval
    · simp only [List.length_append, List.length_cons]
      refine ⟨by omega, fun hle => ?_⟩
      have hk := hkey_eq (by omega)
      have hv := hval_eq (by omega)
      rw [hk, hv]
      exact ⟨rfl, hkey, hk, hv⟩
    · simp only [List.length_append, List.length_cons, List.length_nil]
      exact ⟨by omega, fun hle => absurd hle (by omega)⟩

/-- The length of strings with a separator behind each of them. -/
def totalLength (strs : List Datum) : ℕ := (strs.map fun str => str.length + 1).sum

theorem length_intercalate {strs : List Datum} (hne : strs ≠ []) :
    ([38].intercalate strs).length + 1 = totalLength strs := by
  induction strs with
  | nil => exact absurd rfl hne
  | cons str strs ih =>
    cases strs with
    | nil => simp [totalLength]
    | cons next strs =>
      have ih := ih (List.cons_ne_nil _ _)
      rw [List.intercalate_cons_cons, List.length_append, List.length_append,
        List.length_singleton]
      simp only [totalLength, List.map_cons, List.sum_cons] at ih ⊢
      omega

theorem totalLength_map {f : Datum → Datum} {strs : List Datum}
    (h : ∀ str ∈ strs, (f str).length ≤ str.length) :
    totalLength (strs.map f) ≤ totalLength strs ∧
      (totalLength strs ≤ totalLength (strs.map f) →
        ∀ str ∈ strs, str.length ≤ (f str).length) := by
  induction strs with
  | nil => exact ⟨Nat.le_refl _, fun _ => nofun⟩
  | cons first strs ih =>
    obtain ⟨hle, heq⟩ := ih fun s hs => h s (List.mem_cons_of_mem _ hs)
    have hfirst := h first (List.mem_cons_self ..)
    simp only [totalLength, List.map_cons, List.sum_cons] at hle heq ⊢
    refine ⟨by omega, fun hsum str hstr => ?_⟩
    rcases List.mem_cons.1 hstr with rfl | hstr
    · omega
    · exact heq (by omega) str hstr

/-- **Variables which are read back** though they were unescaped before they were cut. -/
theorem cleanVar_of_parseQuery {var : List StrvarItem}
    (h : (parseQuery (rawQuery var)).1 = var) : ∀ item ∈ var, CleanVar item := by
  by_cases hvar : var = []
  · rw [hvar]
    exact nofun
  rw [rawQuery, if_pos hvar, parseQuery, List.head?_cons, if_pos rfl, List.tail_cons] at h
  set raw := [38].intercalate (var.map rawVar) with hraw
  have hparts : ((raw.takeWhile (· ≠ 35)).splitOn 38).map (rawVar ∘ parseVar) = var.map rawVar := by
    rw [← List.map_map]
    exact congrArg (List.map rawVar) h
  have hlen := length_intercalate (List.splitOn_ne_nil 38 (raw.takeWhile (· ≠ 35)))
  rw [List.intercalate_splitOn] at hlen
  have hlen' : raw.length + 1 = totalLength (var.map rawVar) :=
    length_intercalate (by simpa using hvar)
  have hpart_le : ∀ part ∈ (raw.takeWhile (· ≠ 35)).splitOn 38,
      ((rawVar ∘ parseVar) part).length ≤ part.length :=
    fun part _ => (length_rawVar_parseVar part).1
  rw [← hparts] at hlen'
  obtain ⟨hle, heq⟩ := totalLength_map hpart_le
  have htake := (List.takeWhile_sublist (l := raw) fun c => decide (c ≠ 35)).length_le
  have hclean := heq (by omega)
  intro item hitem
  rw [← h] at hitem
  obtain ⟨part, hpart, rfl⟩ := List.mem_map.1 hitem
  obtain ⟨hback, hkey, hunkey, hunval⟩ := (length_rawVar_parseVar part).2 (hclean part hpart)
  refine ⟨⟨hunkey, hkey⟩, hunval, fun c hc => ?_⟩
  have hmem : c ∈ part := by
    rw [← hback, rawVar]
    rcases List.mem_append.1 hc with hc | hc
    · exact List.mem_append_left _ hc
    · refine List.mem_append_right _ ?_
      rw [if_pos (List.ne_nil_of_mem hc)]
      exact List.mem_cons_of_mem _ hc
  rw [List.splitOn_eq_splitOnP] at hpart
  have hanchor := List.all_eq_true.1 List.all_takeWhile c ((sublist_of_mem_splitOnP hpart).subset hmem)
  exact ⟨by simpa using hanchor, by simpa using of_mem_splitOnP hpart c hmem⟩

end Var

/-! ### Both are got back only when they are clean -/

theorem notMem_queryStr : 47 ∉ u.queryStr := by
  rw [queryStr]
  split_ifs
  · intro h
    refine notMem_intercalate (by decide) (fun str hstr => ?_)
      ((List.mem_cons.1 h).resolve_left (by decide))
    obtain ⟨item, -, rfl⟩ := List.mem_map.1 hstr
    exact notMem_varStr rfl (by decide) rfl (by decide) item
  · exact List.not_mem_nil

/-- A port which went through `atoi` twice, and is what it was. -/
theorem cleanPort_of_portBack (hport : outter_uri.port = u.portBack)
    (hback : u.port = outter_uri.portBack) : CleanPort outter_uri := by
  by_contra hclean
  rw [CleanPort, not_or] at hclean
  -- the first one is an `int`, or so large that the second one makes the largest number of it
  have hlarge : 2 ^ 63 ≤ u.port → u.portBack = 2 ^ 64 - 1 := by
    intro hle
    have hdefault : u.scheme.defaultPort < 2 ^ 31 := by cases u.scheme <;> decide
    have hmod : (2 ^ 63 - 1) % 2 ^ 32 = 2 ^ 32 - 1 := rfl
    rw [portBack, portOver, if_pos (by omega), atoi_decimal, Nat.min_eq_right (by omega), hmod,
      if_neg (by omega)]
    rfl
  have hcases : u.port < 2 ^ 31 ∨ 2 ^ 63 ≤ u.port := by
    have hdefault : outter_uri.scheme.defaultPort < 2 ^ 31 := by
      cases outter_uri.scheme <;> decide
    rw [hback, portBack, portOver]
    split_ifs
    · rw [atoi_decimal]
      split_ifs <;> omega
    · exact .inl hdefault
  rcases hcases with hsmall | hle
  · rw [u.portBack_eq_iff.2 (.inl hsmall)] at hport
    omega
  · exact hclean.2 (hport.trans (hlarge hle))

/-- The names which the front of the nested path leads to. -/
def frontNames (outter_uri : HttpUri) : List Datum :=
  (walkOf (((FilePath.nameParts outter_uri.names).map unescape).flatMap splitSepa)).down

theorem outterWalk_down (outter_uri : HttpUri) : (outterWalk outter_uri).down =
    frontNames outter_uri ++ outter_uri.var.map varEsc := by
  rw [outterWalk, Walk.mul_of_up_eq_zero _ rfl]
  rfl

/-- They weigh no more than the names of the outer uri, and less when these are unescaped. -/
theorem namesWeight_frontNames (outter_uri : HttpUri) :
    namesWeight (frontNames outter_uri) ≤ namesWeight outter_uri.names ∧
      (namesWeight outter_uri.names ≤ namesWeight (frontNames outter_uri) →
        ∀ name ∈ outter_uri.names, unescape name = name) := by
  have hle := namesWeight_le_of_sublist (walkOf_down_sublist
    (((FilePath.nameParts outter_uri.names).map unescape).flatMap splitSepa))
  obtain ⟨hmap, heq⟩ := namesWeight_map
    fun name (_ : name ∈ FilePath.nameParts outter_uri.names) => (weight_unescape name).1
  rw [namesWeight_flatMap_splitSepa] at hle
  rw [namesWeight_nameParts] at hmap heq
  refine ⟨hle.trans hmap, fun hge name hname => (weight_unescape name).2 (heq (hge.trans hle) name ?_)⟩
  rwa [FilePath.nameParts_of_ne_nil (List.ne_nil_of_mem hname)]

/-- `http:` is no variable: what ends with it in front of the variables is in the names. -/
theorem prefix_frontNames {before : List Datum}
    (h : before ++ [httpName] <+: (outterWalk outter_uri).down) :
    before ++ [httpName] <+: frontNames outter_uri := by
  obtain ⟨tail, htail⟩ := h
  rw [outterWalk_down] at htail
  rcases List.append_eq_append_iff.1 htail with ⟨more, hfront, -⟩ | ⟨more, hbefore, hvars⟩
  · exact ⟨more, hfront.symm⟩
  · rcases List.eq_nil_or_concat more with rfl | ⟨more, last, rfl⟩
    · rw [List.append_nil] at hbefore
      exact hbefore ▸ List.prefix_refl _
    · rw [List.concat_eq_append, ← List.append_assoc] at hbefore
      obtain ⟨-, hlast⟩ := List.append_inj' hbefore rfl
      have hmem : httpName ∈ outter_uri.var.map varEsc := by
        rw [hvars, (List.cons.inj hlast).1]
        simp
      obtain ⟨item, -, heq⟩ := List.mem_map.1 hmem
      exact absurd (List.cons.inj heq).1 (by decide)

/-- The names of the nested uri are not enough for an inner uri behind one more `http:`. -/
theorem not_sublist {first : Datum} {rest : List Datum} (hnull : inner_uri.path.isNull = false)
    (hscheme : inner_uri.scheme = .http) (hsepa : ∀ c ∈ first, isSepa c = false)
    (h : HttpUri.ofString (httpPrefix ++ (first ++ (joined rest ++ rawQuery inner_uri.var))) =
      some inner_uri) :
    ¬ (httpName :: first :: rest).Sublist
      (splitSepa (unescape inner_uri.hostportStr) ++ inner_uri.names) := by
  intro hsub
  obtain ⟨rfl, hrest, hunescape, hhost⟩ :=
    first_eq_hostportStr ((List.sublist_cons_self ..).trans hsub) hsepa h
  obtain ⟨rfl, -⟩ := names_of_ofString hnull hscheme hrest h
  rw [unescape_hostportStr hunescape, splitSepa_eq_singleton (isSepa_hostportStr hhost)] at hsub
  have hlen := hsub.length_le
  simp only [List.length_cons, List.length_append, List.length_nil] at hlen
  omega

/-- No name of the outer uri ends the path of the nested one, when this weighs enough. -/
theorem isPathEnd_of_weight (hpath : nested_uri.path =
      (parsePath (joined (buildParts outter_uri inner_uri) ++ inner_uri.queryStr)).1)
    (hle : namesWeight outter_uri.names ≤ namesWeight nested_uri.names) :
    ∀ name ∈ outter_uri.names, ∀ c ∈ name, isPathEnd c = false := by
  intro name hname c hc
  rw [Bool.eq_false_iff]
  intro hend
  have hmem : c ∈ joined (FilePath.nameParts outter_uri.names) := by
    rw [FilePath.nameParts_of_ne_nil (List.ne_nil_of_mem hname)]
    exact List.mem_flatMap.2 ⟨name, hname, List.mem_cons_of_mem _ hc⟩
  have hlt := weight_takeWhile_lt hmem hend (joined (outter_uri.var.map varName ++
    httpName :: inner_uri.hostportStr :: [] ::
      (FilePath.nameParts inner_uri.names).map (escapeNotIn pathCharset)) ++ inner_uri.queryStr)
  rw [weight_joined, namesWeight_nameParts, ← List.append_assoc, ← joined_append] at hlt
  obtain ⟨names, hnames, hweight⟩ :=
    exists_parsePath (joined (buildParts outter_uri inner_uri) ++ inner_uri.queryStr)
  have hunescape := (weight_unescape ((joined (buildParts outter_uri inner_uri) ++
    inner_uri.queryStr).takeWhile fun c => !isPathEnd c)).1
  rw [← hpath] at hnames
  rw [names_eq hnames] at hle
  rw [buildParts] at hweight hunescape
  omega

/-- The names in front of the variables are those of the outer uri, and none of them changed, when
they weigh enough where it is got back. -/
theorem clean_of_weight (hnull : outter_uri.path.isNull = false)
    (hpathName : ∀ name ∈ frontNames outter_uri, weight (pathName name) ≤ weight name ∧
      (weight (pathName name) = weight name → name.head? ≠ some 58))
    (hweight : namesWeight outter_uri.names ≤ namesWeight
      ((((outterWalk outter_uri).down).map pathName).takeWhile notEsc)) :
    frontNames outter_uri = outter_uri.names ∧
      ∀ name ∈ outter_uri.names, unescape name = name ∧ name.head? ≠ some 58 := by
  have hmark : ∀ name, (outter_uri.var.map varEsc).head? = some name → notEsc name = false := by
    intro name hname
    obtain ⟨item, -, rfl⟩ := List.mem_map.1 (List.mem_of_mem_head? hname)
    rfl
  rw [outterWalk_down, List.map_append, map_pathName_vars,
    (takeWhile_append_dropWhile_append _ hmark).1] at hweight
  have htake := namesWeight_le_of_sublist (List.takeWhile_sublist
    (l := (frontNames outter_uri).map pathName) notEsc)
  obtain ⟨hmap, heq⟩ := namesWeight_map fun name hname => (hpathName name hname).1
  obtain ⟨hfrontle, hunescape⟩ := namesWeight_frontNames outter_uri
  have hclean := hunescape (by omega)
  have hfront : frontNames outter_uri = outter_uri.names := by
    have hdown := congrArg Walk.down (outterWalk_eq hnull hclean)
    rw [outterWalk_down] at hdown
    exact List.append_cancel_right hdown
  refine ⟨hfront, fun name hname => ⟨hclean name hname, ?_⟩⟩
  rw [← hfront] at hname
  exact (hpathName name hname).2 (heq (by omega) name hname)

/-- **Clean uris only**: a uri which is not clean is not got back, with any other. -/
theorem clean_of_round (hvalid : isValidOutter outter_uri = true)
    (hscheme : inner_uri.scheme = .http) (hanchor : inner_uri.anchor = [])
    (hinner : (build outter_uri inner_uri).bind parseInner = some inner_uri)
    (houtter : (build outter_uri inner_uri).bind parseOutter = some outter_uri) :
    CleanOutter outter_uri ∧ CleanInner inner_uri := by
  obtain ⟨hnull, hesc, -, -⟩ := of_isValidOutter hvalid
  obtain ⟨n, hbuild, hinner⟩ := Option.bind_eq_some_iff.1 hinner
  rw [hbuild, Option.bind_some] at houtter
  have hinull : inner_uri.path.isNull = false := by
    obtain ⟨pos, -, hinner⟩ := Option.bind_eq_some_iff.1 hinner
    exact isNull_path_of_ofString hinner
  obtain ⟨n', hbuild', hnscheme, hnhost, hnport, hnpath, -⟩ := exists_build hnull hinull
  obtain rfl := Option.some.inj (hbuild.symm.trans hbuild')
  have hnnull : n.path.isNull = false := by
    rw [hnpath]
    exact isNull_parsePath _
  obtain ⟨hhostport, before, ⟨vars, hvars⟩, hcases⟩ := of_parseOutter hnscheme hnnull houtter
  obtain ⟨hoscheme, -, hoport, hweight⟩ := outter_got_back hnscheme hvars
  -- the host and the port
  rw [← hoscheme] at hnport
  have hport := cleanPort_of_portBack hoport hnport
  have hportback : n.port = outter_uri.port := hnport.trans (outter_uri.portBack_eq_iff.2 hport)
  rw [hostportStr_eq (hnscheme.trans hoscheme.symm) hnhost hportback] at hhostport
  -- what the names in front of `http:` weigh
  have hmem : ∀ {name}, name ∈ before → name ∈ n.names := by
    intro name hname
    rcases hcases with ⟨first, rest, hnames, -⟩ | ⟨rfl, -⟩
    · rw [hnames]
      exact List.mem_append_left _ hname
    · exact hname
  have hpathName : ∀ name ∈ before, weight (pathName name) ≤ weight name ∧
      (weight (pathName name) = weight name → name.head? ≠ some 58) := fun name hname =>
    weight_pathName (isName_of_mem_names (hmem hname)).1 (noSepa_names hnnull name (hmem hname))
  have hbefore : namesWeight outter_uri.names ≤ namesWeight before :=
    hweight.trans ((namesWeight_le_of_sublist (List.takeWhile_sublist _)).trans
      (namesWeight_map fun name hname => (hpathName name hname).1).1)
  have hend := isPathEnd_of_weight hnpath (hbefore.trans ?_)
  swap
  · rcases hcases with ⟨first, rest, hcut, -⟩ | ⟨rfl, -⟩
    · rw [hcut]
      exact namesWeight_le_of_sublist (List.sublist_append_left _ _)
    · exact Nat.le_refl _
  obtain ⟨n', hbuild'', -, -, -, -, hnames, hnvar, hnanchor⟩ := build_eq hnull hinull hanchor hend
  obtain rfl := Option.some.inj (hbuild.symm.trans hbuild'')
  have htail : tailStr n = inner_uri.queryStr := by
    rw [tailStr_of_anchor hnanchor, queryStr, queryStr, hnvar]
  rcases hcases with ⟨first, rest, hcut, hhttp⟩ | ⟨-, hmem⟩
  swap
  · rw [htail] at hmem
    exact absurd hmem notMem_queryStr
  rw [parseInner_eq hnscheme hnnull hcut hhttp (hostportStr_eq (hnscheme.trans hoscheme.symm) hnhost
    hportback ▸ hhostport), htail, unescape_queryStr] at hinner
  have hsepa : ∀ c ∈ first, isSepa c = false :=
    noSepa_names hnnull first (by rw [hcut]; simp)
  have hwalk : innerWalk inner_uri =
      walkOf (splitSepa (unescape inner_uri.hostportStr) ++ inner_uri.names) := by
    rw [innerWalk, walkOf_append, walkOf_down fun _ => isName_of_mem_names]
  have hsub : (innerWalk inner_uri).down.Sublist
      (splitSepa (unescape inner_uri.hostportStr) ++ inner_uri.names) := by
    rw [hwalk]
    exact walkOf_down_sublist _
  obtain ⟨hfrontle, hunescape⟩ := namesWeight_frontNames outter_uri
  rw [hnames] at hcut
  obtain ⟨rfl, hback⟩ := Walk.eq_of_mul_child hcut
    (fun hprefix => by
      have hle := namesWeight_le_of_sublist (prefix_frontNames hprefix).sublist
      rw [namesWeight_append] at hle
      have hhttp : namesWeight [httpName] = 5 := rfl
      omega)
    fun hsuffix => not_sublist hinull hscheme hsepa hinner (hsuffix.sublist.trans hsub)
  constructor
  · rw [outterWalk_down] at hhttp hpathName
    obtain ⟨hfront, hclean⟩ := clean_of_weight hnull
      (fun name hname => hpathName name (List.mem_append_left _ hname)) hweight
    rw [hfront] at hhttp
    refine ⟨hoscheme, hhostport, hport, fun name hname => ?_, fun hmem => ?_⟩
    · rw [(rooted hnull).2] at hname
      rcases List.mem_cons.1 hname with rfl | hname
      · exact ⟨⟨rfl, by simp⟩, by simp⟩
      · exact ⟨⟨(hclean name hname).1, hend name hname⟩, (hclean name hname).2⟩
    · rw [(rooted hnull).2] at hmem
      rcases List.mem_cons.1 hmem with hnil | hmem
      · cases hnil
      · exact hhttp (List.mem_append_left _ hmem)
  · obtain ⟨rfl, hrest, hunescape, hhost⟩ :=
      first_eq_hostportStr (hback ▸ hsub) hsepa hinner
    obtain ⟨rfl, hport, hclean, hvar⟩ := names_of_ofString hinull hscheme hrest hinner
    have hname : IsName inner_uri.hostportStr := by
      have hmem : inner_uri.hostportStr ∈ (innerWalk inner_uri).down :=
        hback ▸ List.mem_cons_self ..
      rw [hwalk] at hmem
      exact isName_of_mem_down hmem
    refine ⟨hinull, hport, ⟨hunescape, hhost, hname.2⟩, fun name hmem => ?_,
      cleanVar_of_parseQuery hvar⟩
    rw [(rooted hinull).2] at hmem
    rcases List.mem_cons.1 hmem with rfl | hmem
    · exact ⟨rfl, by simp⟩
    · exact hclean name hmem

/-- **Nested uris**: both uris are got back exactly when they are clean. -/
theorem nested_iff (hvalid : isValidOutter outter_uri = true)
    (hscheme : inner_uri.scheme = .http) (hanchor : inner_uri.anchor = []) :
    ((build outter_uri inner_uri).bind parseInner = some inner_uri ∧
      (build outter_uri inner_uri).bind parseOutter = some outter_uri) ↔
        CleanOutter outter_uri ∧ CleanInner inner_uri := by
  constructor
  · rintro ⟨hinner, houtter⟩
    exact clean_of_round hvalid hscheme hanchor hinner houtter
  · rintro ⟨ho, hi⟩
    obtain ⟨n, hbuild, hinner, houtter⟩ := round_of_clean hvalid hscheme hanchor ho hi
    rw [hbuild]
    exact ⟨hinner, houtter⟩

/-- `http://o/a?k=v` -/
def sampleUri (host val : Datum) (host_ne : host ≠ [])
    (host_delim : ∀ c ∈ host, isUriDelim c = false) : HttpUri where
  scheme := .http
  host
  port := 80
  path := .ofString [47, 97]
  var := [⟨[107], val⟩]
  anchor := []
  host_ne
  host_delim
  port_lt := defaultPort_lt .http
  path_rooted := .inr (by decide)

/-- `http://o/a?k=v` -/
def outterSample : HttpUri := sampleUri [111] [118] (by decide) (forall_mem_of_all rfl)

/-- `http://i/a?k=w` -/
def innerSample : HttpUri := sampleUri [105] [119] (by decide) (forall_mem_of_all rfl)

/-- `http://i/a?k=a%26b` -/
def innerAmp : HttpUri := sampleUri [105] [97, 38, 98] (by decide) (forall_mem_of_all rfl)

theorem name_db_sample : outterSample.path.name_db = [[], [97]] := by decide

theorem nested_iff_sample :
    (build outterSample innerSample).bind parseInner = some innerSample ∧
      (build outterSample innerSample).bind parseOutter = some outterSample := by
  have hnames : ∀ name ∈ outterSample.path.name_db, CleanName name ∧ name.head? ≠ some 58 := by
    rw [name_db_sample]
    intro name hname
    simp only [List.mem_cons, List.not_mem_nil, or_false] at hname
    rcases hname with rfl | rfl
    · exact ⟨⟨rfl, by simp⟩, by simp⟩
    · exact ⟨⟨rfl, forall_mem_of_all rfl⟩, by decide⟩
  refine (nested_iff (by decide) rfl rfl).2 ⟨⟨rfl, by decide, .inl (by decide), hnames, ?_⟩,
    ⟨by decide, .inl (by decide), by decide, fun name hname => (hnames name hname).1, ?_⟩⟩
  · rw [name_db_sample]
    decide
  · intro item hitem
    obtain rfl := List.mem_singleton.1 hitem
    exact ⟨by decide, by decide, by simp⟩

/-- The inner variable `k=a%26b` is got back as `k=a` and `b`. -/
theorem not_nested : isValidOutter outterSample = true ∧ innerAmp.scheme = .http ∧
    innerAmp.anchor = [] ∧
      ¬ ((build outterSample innerAmp).bind parseInner = some innerAmp ∧
        (build outterSample innerAmp).bind parseOutter = some outterSample) := by
  have hvalid : isValidOutter outterSample = true := by decide
  refine ⟨hvalid, rfl, rfl, fun ⟨hinner, houtter⟩ => ?_⟩
  have hclean := (clean_of_round hvalid rfl rfl hinner houtter).2.vars ⟨[107], [97, 38, 98]⟩
    (List.mem_singleton_self _)
  exact (hclean.cut 38 (by decide)).2 rfl

end HttpNestedUri

end Neoip
