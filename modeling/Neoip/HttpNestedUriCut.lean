/-
Neoip/HttpNestedUriCut.lean

The parts of a nested uri.

The string of `build` is one of parts, and so is the path of the nested uri: the names
of the outer one, its variables, `http:`, the host of the inner one and its names.  The
separator is found at `http:`, since no part before it is this name, and what is on
either side of it is unescaped.

Main results: `build_eq`, `parseOutter_eq` and `parseInner_eq`.
-/
import Neoip.HttpNestedUri

namespace Neoip

variable {name_db : List Datum} {name : Datum}

/-! ### Names of paths -/

namespace FilePath

variable {p : FilePath}

theorem walkOf_nameParts (name_db : List Datum) :
    walkOf (nameParts name_db) = walkOf name_db := by
  rw [nameParts]
  split_ifs with h
  · rw [h]
    rfl
  · rfl

theorem nameParts_of_ne_nil (h : name_db ≠ []) : nameParts name_db = name_db := if_neg h

theorem mem_nameParts (h : name ∈ nameParts name_db) : name = [] ∨ name ∈ name_db := by
  rw [nameParts] at h
  split_ifs at h
  · exact .inl (List.mem_singleton.1 h)
  · exact .inr h

/-- A path from the root: its names, none of them a placeholder or a parent. -/
theorem exists_names_of_rooted (habs : p.isAbsolute = true) :
    p.name_db = [] :: p.walk.down := by
  cases hnull : p.isNull with
  | true =>
    rw [eq_null hnull] at habs
    cases habs
  | false =>
    rw [name_db_eq hnull, namesOf, if_pos habs]

end FilePath

namespace HttpUri

variable {u : HttpUri}

/-- The names of the path of a uri. -/
def names (u : HttpUri) : List Datum := u.path.walk.down

theorem rooted (h : u.path.isNull = false) :
    u.path.drvletter = [] ∧ u.path.name_db = [] :: u.names := by
  obtain ⟨habs, hdrv⟩ := u.path_rooted.resolve_left fun hnull =>
    Bool.false_ne_true (h.symm.trans hnull)
  exact ⟨hdrv, FilePath.exists_names_of_rooted habs⟩

theorem isName_of_mem_names (h : name ∈ u.names) : IsName name := isName_of_mem_down h

theorem noSepa_names (h : u.path.isNull = false) : NoSepa u.names := fun name hname =>
  u.path.no_sepa name ((rooted h).2 ▸ List.mem_cons_of_mem _ hname)

theorem names_eq (h : u.path.name_db = [] :: name_db) : u.names = name_db := by
  have habs : u.path.isAbsolute = true := by
    rw [FilePath.isAbsolute, h]
    rfl
  exact (List.cons.inj ((FilePath.exists_names_of_rooted habs).symm.trans h)).2

/-- Two paths from the root with the same names. -/
theorem path_eq {v : HttpUri} (hu : u.path.isNull = false) (hv : v.path.isNull = false)
    (h : u.names = v.names) : u.path = v.path := by
  obtain ⟨hdrv, hnames⟩ := rooted hu
  obtain ⟨hdrv', hnames'⟩ := rooted hv
  exact FilePath.ext (hdrv.trans hdrv'.symm) (by rw [hnames, hnames', h])

theorem path_toString (h : u.path.isNull = false) :
    u.path.toString = joined (FilePath.nameParts u.names) :=
  FilePath.toString_eq_joined (rooted h).1 (rooted h).2

theorem pathStr_eq (h : u.path.isNull = false) : u.pathStr =
    joined ((FilePath.nameParts u.names).map (escapeNotIn pathCharset)) := by
  rw [pathStr, path_toString h, escapeNotIn_joined]

theorem notMem_hostportStr {c : UInt8} (hdelim : isUriDelim c = true) (hne : c ≠ 58) :
    c ∉ u.hostportStr := by
  intro h
  rcases List.mem_append.1 h with h | h
  · exact Bool.false_ne_true ((u.host_delim c h).symm.trans hdelim)
  · split_ifs at h
    · rcases List.mem_cons.1 h with h | h
      · exact hne h
      · have hdigit := Bencode.isDigit_decimal h
        simp only [isUriDelim, Bool.or_eq_true, decide_eq_true_iff] at hdelim
        obtain ((rfl | rfl) | rfl) | rfl := hdelim
        · exact hne rfl
        · exact absurd hdigit (by decide)
        · exact absurd hdigit (by decide)
        · exact absurd hdigit (by decide)
    · cases h

end HttpUri

namespace HttpNestedUri

open HttpUri

/-! ### What `uri_path[i].to_string()` is -/

/-- A name as a path, in its string. -/
def pathName (name : Datum) : Datum := (FilePath.ofString name).toString

theorem filterMap_range (l : List Datum) (f : Datum → Datum) :
    (List.range l.length).filterMap (fun i => (l[i]?).map f) = l.map f := by
  induction l with
  | nil => rfl
  | cons a l ih =>
    rw [List.length_cons, List.range_succ_eq_map, List.filterMap_cons, List.filterMap_map]
    simpa using ih

theorem pathNames_eq {path : FilePath} (h : path.name_db = [] :: name_db) :
    pathNames path = [47] :: name_db.map pathName := by
  have habs : path.isAbsolute = true := by
    rw [FilePath.isAbsolute, h]
    rfl
  have hsize : path.size = name_db.length + 1 := by
    rw [FilePath.size, if_pos habs, h]
    rfl
  have hzero : path.get 0 = some (FilePath.ofString [47]) := by
    rw [FilePath.get, if_pos habs, if_pos rfl]
  have hsucc : ∀ i, path.get (i + 1) = (name_db[i]?).map FilePath.ofString := by
    intro i
    rw [FilePath.get, if_pos habs, if_neg (Nat.succ_ne_zero i), h]
    rfl
  have hroot : (FilePath.ofString [47]).toString = [47] := by decide
  rw [pathNames, hsize, List.range_succ_eq_map, List.filterMap_cons, hzero, List.filterMap_map,
    ← filterMap_range]
  simp only [Option.map_some, hroot, Function.comp_def, hsucc, Option.map_map]
  rfl

/-- The string of a name with a colon: what is before the first one is taken for a drive letter,
and an empty rest for the root. -/
theorem pathName_append_colon {drvletter rest : Datum}
    (hdrv : ∀ c ∈ drvletter, isSepa c = false ∧ c ≠ 58) (hrest : ∀ c ∈ rest, isSepa c = false) :
    pathName (drvletter ++ 58 :: rest) = (if drvletter = [] then [] else drvletter ++ [58]) ++
      if rest = [] then [47] else rest := by
  have hall : ∀ c ∈ drvletter, decide (c ≠ 58) = true := fun c hc => decide_eq_true (hdrv c hc).2
  have hsepa : ∀ c ∈ drvletter ++ 58 :: rest, isSepa c = false := by
    intro c hc
    rcases List.mem_append.1 hc with hc | hc
    · exact (hdrv c hc).1
    · rcases List.mem_cons.1 hc with rfl | hc
      · rfl
      · exact hrest c hc
  have hsplit : splitDrvletter (splitSepa (drvletter ++ 58 :: rest)) = (drvletter, [rest]) := by
    rw [splitSepa_eq_singleton hsepa, splitDrvletter, if_pos (by simp),
      List.takeWhile_append_of_pos hall, List.dropWhile_append_of_pos hall]
    simp
  have hnormal : normalize [rest] = [rest] := by
    by_cases h : rest = []
    · rw [h]
      decide
    · exact normalize_singleton h
  have hpath : (FilePath.ofString (drvletter ++ 58 :: rest)).drvletter = drvletter ∧
      (FilePath.ofString (drvletter ++ 58 :: rest)).name_db = [rest] := by
    rw [FilePath.ofString, if_neg (by simp), FilePath.ofNames]
    simp only [hsplit, hnormal, and_self]
  rw [pathName, FilePath.toString, FilePath.drvString, FilePath.namesString, hpath.1, hpath.2]
  simp only [List.cons.injEq, and_true]
  rfl

theorem pathName_of_notMem (hne : name ≠ []) (hsepa : ∀ c ∈ name, isSepa c = false)
    (hcolon : 58 ∉ name) : pathName name = name := by
  have hdrv : NoDrvletter name := by
    intro first hfirst
    rw [splitSepa_eq_singleton hsepa] at hfirst
    obtain rfl := Option.some.inj hfirst
    exact hcolon
  have hdrvletter := (FilePath.ofString_eq hne hdrv).1
  rw [pathName, FilePath.toString, FilePath.drvString, if_pos hdrvletter, FilePath.namesString,
    FilePath.name_db_ofString_name hsepa hne hcolon, if_neg (by simpa using hne)]
  rfl

/-- The string of a name: the name, unless a colon is its first character, which is lost, or its
last one, behind which comes a separator. -/
theorem pathName_cases (hne : name ≠ []) (hsepa : ∀ c ∈ name, isSepa c = false) :
    (name.head? ≠ some 58 ∧ (pathName name = name ∨ pathName name = name ++ [47])) ∨
      ∃ rest, name = 58 :: rest ∧ (pathName name = rest ∨ pathName name = [47] ∧ rest = []) := by
  by_cases hcolon : 58 ∈ name
  · obtain ⟨drvletter, rest, rfl, hdrv⟩ := List.eq_append_cons_of_mem hcolon
    have hdrvletter : ∀ c ∈ drvletter, isSepa c = false ∧ c ≠ 58 := fun c hc =>
      ⟨hsepa c (List.mem_append_left _ hc), fun heq => hdrv (heq ▸ hc)⟩
    have hrest : ∀ c ∈ rest, isSepa c = false := fun c hc =>
      hsepa c (List.mem_append_right _ (List.mem_cons_of_mem _ hc))
    rw [pathName_append_colon hdrvletter hrest]
    cases drvletter with
    | nil =>
      rw [if_pos rfl, List.nil_append]
      refine .inr ⟨rest, rfl, ?_⟩
      split_ifs with hnil
      · exact .inr ⟨rfl, hnil⟩
      · exact .inl rfl
    | cons c drvletter =>
      rw [if_neg (List.cons_ne_nil _ _)]
      refine .inl ⟨fun hhead => hdrv ?_, ?_⟩
      · rw [← Option.some.inj hhead]
        exact List.mem_cons_self ..
      · split_ifs with hnil
        · right
          rw [hnil]
        · left
          simp
  · refine .inl ⟨fun hhead => hcolon (List.mem_of_mem_head? hhead), .inl ?_⟩
    exact pathName_of_notMem hne hsepa hcolon

/-! ### Cutting the nested uri -/

/-- `http%3a` -/
def httpNameEsc : Datum := escapeNotIn pathCharset httpName

/-- What is behind the path of a uri. -/
def tailStr (u : HttpUri) : Datum := u.queryStr ++ u.anchorStr

/-- The parts of the string of a uri behind `http:`. -/
def uriParts (u : HttpUri) : List Datum :=
  [] :: u.hostportStr :: (FilePath.nameParts u.names).map (escapeNotIn pathCharset)

variable {u nested_uri outter_uri inner_uri : HttpUri}

theorem httpPrefix_append (hostport_str : Datum) (parts : List Datum) :
    httpPrefix ++ hostport_str ++ joined parts = httpName ++ joined ([] :: hostport_str :: parts) := by
  simp [httpPrefix, httpName, HttpScheme.toString, schemeSepa]

theorem toString_eq (hscheme : u.scheme = .http) (hnull : u.path.isNull = false) :
    u.toString = httpName ++ (joined (uriParts u) ++ tailStr u) := by
  have hstr : u.toString = httpPrefix ++ u.hostportStr ++
      joined ((FilePath.nameParts u.names).map (escapeNotIn pathCharset)) ++ tailStr u := by
    rw [HttpUri.toString, hscheme, pathStr_eq hnull, tailStr, anchorStr]
    simp only [List.append_assoc, httpPrefix]
  rw [hstr, httpPrefix_append, List.append_assoc]
  rfl

theorem escape_inj {a b : Datum} (h : escapeNotIn pathCharset a = escapeNotIn pathCharset b) :
    a = b := by
  rw [← unescape_escapeNotIn unreserved_spec.2 a, h, unescape_escapeNotIn unreserved_spec.2]

theorem head?_tailStr {c : UInt8} (h : (tailStr u).head? = some c) : isPathEnd c = true :=
  head?_queryStr_anchorStr h

/-- What begins the variables or the anchor is not in the separator. -/
theorem tailStr_spec (u : HttpUri) : ∀ c, (tailStr u).head? = some c → c ≠ 47 ∧ c ∉ httpNameEsc := by
  intro c hc
  have hend := head?_tailStr hc
  rw [isPathEnd, Bool.or_eq_true, decide_eq_true_iff, decide_eq_true_iff] at hend
  rcases hend with rfl | rfl <;> decide

/-- No part of the string of a uri holds a separator. -/
theorem notMem_uriParts (hnull : u.path.isNull = false) : ∀ part ∈ uriParts u, 47 ∉ part := by
  intro part hpart
  rcases List.mem_cons.1 hpart with rfl | hpart
  · exact List.not_mem_nil
  rcases List.mem_cons.1 hpart with rfl | hpart
  · exact notMem_hostportStr rfl (by decide)
  · obtain ⟨name, hname, rfl⟩ := List.mem_map.1 hpart
    rcases FilePath.mem_nameParts hname with rfl | hname
    · exact List.not_mem_nil
    · intro hmem
      have hmem' := mem_of_mem_escapeNotIn (by decide) rfl hmem
      exact Bool.false_ne_true ((noSepa_names hnull name hname 47 hmem').symm.trans rfl)

/-- **Where the nested uri is cut**: at the first name `http:` which is not the last one. -/
theorem findSubstr_toString (hscheme : u.scheme = .http) (hnull : u.path.isNull = false)
    {before after : List Datum} (hnames : u.names = before ++ httpName :: after) (hne : after ≠ [])
    (hbefore : httpName ∉ before) (hhostport : u.hostportStr ≠ httpNameEsc) :
    ∃ pos, findSubstr separatorEsc u.toString = some pos ∧
      u.toString.take pos = httpPrefix ++ u.hostportStr ++
        joined (before.map (escapeNotIn pathCharset)) ∧
      47 :: u.toString.drop (pos + 9) =
        joined (after.map (escapeNotIn pathCharset)) ++ tailStr u := by
  have hsep : separatorEsc = 47 :: (httpNameEsc ++ [47]) := by decide
  have hcut : uriParts u = ([] :: u.hostportStr :: before.map (escapeNotIn pathCharset)) ++
      httpNameEsc :: after.map (escapeNotIn pathCharset) := by
    rw [uriParts, hnames, FilePath.nameParts_of_ne_nil (by simp), List.map_append]
    rfl
  -- no part before the cut is the escaped scheme
  have hparts : ∀ part ∈ [] :: u.hostportStr :: before.map (escapeNotIn pathCharset),
      47 ∉ part ∧ part ≠ httpNameEsc := by
    intro part hpart
    refine ⟨notMem_uriParts hnull part (hcut ▸ List.mem_append_left _ hpart), ?_⟩
    rcases List.mem_cons.1 hpart with rfl | hpart
    · decide
    rcases List.mem_cons.1 hpart with rfl | hpart
    · exact hhostport
    · obtain ⟨name, hname, rfl⟩ := List.mem_map.1 hpart
      exact fun heq => hbefore (escape_inj heq ▸ hname)
  have hfind : findSubstr separatorEsc (joined (uriParts u) ++ tailStr u) =
      some (joined ([] :: u.hostportStr :: before.map (escapeNotIn pathCharset))).length := by
    rw [hsep, hcut]
    exact findSubstr_joined (by decide) hparts (by simpa using hne) (tailStr_spec u)
  have hstr : u.toString = httpPrefix ++ u.hostportStr ++
      joined (before.map (escapeNotIn pathCharset)) ++ (47 :: httpNameEsc ++
        (joined (after.map (escapeNotIn pathCharset)) ++ tailStr u)) := by
    rw [toString_eq hscheme hnull, hcut, httpPrefix_append]
    simp only [joined_append, joined_cons, List.append_assoc, List.cons_append]
  have hlen : (httpPrefix ++ u.hostportStr ++ joined (before.map (escapeNotIn pathCharset))).length
      = (joined ([] :: u.hostportStr :: before.map (escapeNotIn pathCharset))).length + 5 := by
    rw [httpPrefix_append, List.length_append, Nat.add_comm]
    rfl
  refine ⟨(httpPrefix ++ u.hostportStr ++ joined (before.map (escapeNotIn pathCharset))).length,
    ?_, ?_, ?_⟩
  · rw [toString_eq hscheme hnull, hsep, findSubstr_append_of_notMem (by decide), ← hsep, hfind,
      hlen]
    rfl
  · rw [hstr, List.take_left]
  · obtain ⟨next, after, rfl⟩ := List.exists_cons_of_ne_nil hne
    have hstr' : u.toString = (httpPrefix ++ u.hostportStr ++
        joined (before.map (escapeNotIn pathCharset)) ++ separatorEsc) ++
          (escapeNotIn pathCharset next ++
            (joined (after.map (escapeNotIn pathCharset)) ++ tailStr u)) := by
      rw [hstr, hsep]
      simp only [List.map_cons, joined_cons, List.append_assoc, List.cons_append, List.nil_append]
    rw [hstr', List.drop_left' (by rw [List.length_append]; rfl)]
    simp only [List.map_cons, joined_cons, List.append_assoc, List.cons_append]

/-! ### What the nested uri is made of -/

/-- A variable as a name of the nested path, unescaped once. -/
def varEsc (item : StrvarItem) : Datum :=
  escString :: (escapeNotIn unreserved item.key ++ escString :: escapeNotIn unreserved item.val)

theorem unescape_varName (item : StrvarItem) : unescape (varName item) = varEsc item := by
  rw [varName, unescape_cons_of_ne (by decide), unescape_escapeNotIn_append unreserved_spec.1,
    unescape_cons_of_ne (by decide), unescape_escapeNotIn unreserved_spec.1]
  rfl

theorem mem_varEsc {c : UInt8} {item : StrvarItem} (h : c ∈ varEsc item) :
    unreserved c = true ∨ c = 37 ∨ isXdigit c = true := by
  rcases List.mem_cons.1 h with rfl | h
  · exact .inl rfl
  rcases List.mem_append.1 h with h | h
  · exact mem_escapeNotIn h
  rcases List.mem_cons.1 h with rfl | h
  · exact .inl rfl
  · exact mem_escapeNotIn h

theorem notMem_varEsc {c : UInt8} (hset : unreserved c = false) (hne : c ≠ 37)
    (hdigit : isXdigit c = false) (item : StrvarItem) : c ∉ varEsc item := by
  intro h
  rcases mem_varEsc h with h | h | h
  · exact Bool.false_ne_true (hset.symm.trans h)
  · exact hne h
  · exact Bool.false_ne_true (hdigit.symm.trans h)

theorem isSepa_of_mem_varEsc {c : UInt8} {item : StrvarItem} (h : c ∈ varEsc item) :
    isSepa c = false := by
  rw [Bool.eq_false_iff]
  intro hsepa
  rw [isSepa, Bool.or_eq_true, decide_eq_true_iff, decide_eq_true_iff] at hsepa
  rcases hsepa with rfl | rfl
  · exact notMem_varEsc rfl (by decide) rfl item h
  · exact notMem_varEsc rfl (by decide) rfl item h

theorem isName_varEsc (item : StrvarItem) : IsName (varEsc item) := by
  refine ⟨List.cons_ne_nil _ _, fun h => ?_, fun h => ?_⟩
  · exact absurd (List.cons.inj h).1 (by decide)
  · exact absurd (List.cons.inj h).1 (by decide)

theorem isName_of_mem_vars {var : List StrvarItem} (h : name ∈ var.map varEsc) : IsName name := by
  obtain ⟨item, -, rfl⟩ := List.mem_map.1 h
  exact isName_varEsc item

/-- The parts of the path of the string of `build`. -/
def buildParts (outter_uri inner_uri : HttpUri) : List Datum :=
  FilePath.nameParts outter_uri.names ++ (outter_uri.var.map varName ++
    httpName :: inner_uri.hostportStr :: [] ::
      (FilePath.nameParts inner_uri.names).map (escapeNotIn pathCharset))

theorem buildString_eq (ho : outter_uri.path.isNull = false) (hi : inner_uri.path.isNull = false) :
    buildString outter_uri inner_uri = httpPrefix ++ outter_uri.hostportStr ++
      (joined (buildParts outter_uri inner_uri) ++ inner_uri.queryStr) := by
  have hvars : outter_uri.var.flatMap (fun item => 47 :: varName item) =
      joined (outter_uri.var.map varName) := by
    rw [joined, List.flatMap_map]
  rw [buildString, path_toString ho, pathqueryStr, pathStr_eq hi, hvars, buildParts]
  simp only [joined_append, joined_cons, List.append_assoc, List.cons_append, List.nil_append]

/-- Where the front of the nested path leads. -/
def outterWalk (outter_uri : HttpUri) : Walk Datum :=
  walkOf (((FilePath.nameParts outter_uri.names).map unescape).flatMap splitSepa) *
    ⟨0, outter_uri.var.map varEsc⟩

/-- Where what is behind `http:` leads. -/
def innerWalk (inner_uri : HttpUri) : Walk Datum :=
  walkOf (splitSepa (unescape inner_uri.hostportStr)) * ⟨0, inner_uri.names⟩

theorem map_unescape_escape (parts : List Datum) :
    (parts.map (escapeNotIn pathCharset)).map unescape = parts := by
  rw [List.map_map]
  exact (List.map_congr_left fun part _ => unescape_escapeNotIn unreserved_spec.2 part).trans
    (List.map_id parts)

theorem isName_httpName : IsName httpName := by
  refine ⟨?_, ?_, ?_⟩ <;> decide

theorem walkOf_buildParts (hi : inner_uri.path.isNull = false) :
    walkOf (((buildParts outter_uri inner_uri).map unescape).flatMap splitSepa) =
      outterWalk outter_uri * (Walk.child httpName * innerWalk inner_uri) := by
  have hvars : ((outter_uri.var.map varName).map unescape).flatMap splitSepa =
      outter_uri.var.map varEsc := by
    have hmap : (outter_uri.var.map varName).map unescape = outter_uri.var.map varEsc := by
      rw [List.map_map]
      exact List.map_congr_left fun item _ => unescape_varName item
    rw [hmap]
    refine flatMap_splitSepa fun name hname c hc => ?_
    obtain ⟨item, -, rfl⟩ := List.mem_map.1 hname
    exact isSepa_of_mem_varEsc hc
  have hnames : (((FilePath.nameParts inner_uri.names).map (escapeNotIn pathCharset)).map
      unescape).flatMap splitSepa = FilePath.nameParts inner_uri.names := by
    rw [map_unescape_escape]
    refine flatMap_splitSepa fun name hname => ?_
    rcases FilePath.mem_nameParts hname with rfl | hname
    · simp
    · exact noSepa_names hi name hname
  have hempty : walkOf (splitSepa []) = 1 := by decide
  have hhttp : splitSepa (unescape httpName) = [httpName] := by decide
  have hstep : stepOf httpName = Walk.child httpName := isName_httpName.stepOf
  simp only [buildParts, List.map_append, List.map_cons, List.flatMap_append, List.flatMap_cons,
    hvars, hnames, hhttp, unescape_nil, walkOf_append, FilePath.walkOf_nameParts]
  rw [outterWalk, innerWalk, walkOf_down fun _ => isName_of_mem_vars,
    walkOf_down fun _ => isName_of_mem_names, walkOf_cons, hstep]
  simp only [walkOf_nil, mul_one, mul_assoc, hempty, one_mul]

/-- What `build` makes of two uris, whatever their names are. -/
theorem exists_build (ho : outter_uri.path.isNull = false) (hi : inner_uri.path.isNull = false) :
    ∃ nested_uri, build outter_uri inner_uri = some nested_uri ∧ nested_uri.scheme = .http ∧
      nested_uri.host = outter_uri.host ∧ nested_uri.port = outter_uri.portOver .http ∧
        nested_uri.path = (parsePath (joined (buildParts outter_uri inner_uri) ++
          inner_uri.queryStr)).1 ∧
        nested_uri.var = (parseQuery (parsePath (joined (buildParts outter_uri inner_uri) ++
          inner_uri.queryStr)).2).1 ∧
        nested_uri.anchor = parseAnchor (parseQuery (parsePath (joined
          (buildParts outter_uri inner_uri) ++ inner_uri.queryStr)).2).2 := by
  rw [build, buildString_eq ho hi]
  refine ofString_hostport outter_uri .http _ fun c hc => (head?_joined hc).imp_right fun hc => ?_
  rw [queryStr] at hc
  split_ifs at hc
  · obtain rfl := Option.some.inj hc
    rfl
  · cases hc

theorem tailStr_of_anchor (h : u.anchor = []) : tailStr u = u.queryStr := by
  rw [tailStr, anchorStr, if_neg (not_not.2 h), List.append_nil]

theorem parseQuery_of_anchor (h : u.anchor = []) : parseQuery u.queryStr = (u.var, []) := by
  have hquery := parseQuery_queryStr (u := u)
  rwa [anchorStr, if_neg (not_not.2 h), List.append_nil] at hquery

/-- No part of the string of `build` ends the path, when no name of the outer uri does. -/
theorem isPathEnd_buildParts (inner_uri : HttpUri)
    (hend : ∀ name ∈ outter_uri.names, ∀ c ∈ name, isPathEnd c = false) :
    ∀ part ∈ buildParts outter_uri inner_uri, ∀ c ∈ part, isPathEnd c = false := by
  intro part hpart c hc
  rcases List.mem_append.1 hpart with hpart | hpart
  · rcases FilePath.mem_nameParts hpart with rfl | hpart
    · cases hc
    · exact hend part hpart c hc
  rcases List.mem_append.1 hpart with hpart | hpart
  · obtain ⟨item, -, rfl⟩ := List.mem_map.1 hpart
    rcases List.mem_cons.1 hc with rfl | hc
    · rfl
    rcases List.mem_append.1 hc with hc | hc
    · exact isPathEnd_of_mem_escapeNotIn rfl rfl hc
    rcases List.mem_cons.1 hc with rfl | hc
    · rfl
    · exact isPathEnd_of_mem_escapeNotIn rfl rfl hc
  rcases List.mem_cons.1 hpart with rfl | hpart
  · exact forall_mem_of_all rfl c hc
  rcases List.mem_cons.1 hpart with rfl | hpart
  · rw [Bool.eq_false_iff]
    intro hend
    rw [isPathEnd, Bool.or_eq_true, decide_eq_true_iff, decide_eq_true_iff] at hend
    rcases hend with rfl | rfl
    · exact notMem_hostportStr rfl (by decide) hc
    · exact notMem_hostportStr rfl (by decide) hc
  rcases List.mem_cons.1 hpart with rfl | hpart
  · cases hc
  · obtain ⟨name, -, rfl⟩ := List.mem_map.1 hpart
    exact isPathEnd_of_mem_escapeNotIn rfl rfl hc

/-- **The nested uri**: where the front leads, `http:`, and where the inner uri leads. -/
theorem build_eq (ho : outter_uri.path.isNull = false) (hi : inner_uri.path.isNull = false)
    (hanchor : inner_uri.anchor = [])
    (hend : ∀ name ∈ outter_uri.names, ∀ c ∈ name, isPathEnd c = false) :
    ∃ nested_uri, build outter_uri inner_uri = some nested_uri ∧ nested_uri.scheme = .http ∧
      nested_uri.host = outter_uri.host ∧ nested_uri.port = outter_uri.portOver .http ∧
        nested_uri.path.isNull = false ∧
          nested_uri.names =
            (outterWalk outter_uri * (Walk.child httpName * innerWalk inner_uri)).down ∧
            nested_uri.var = inner_uri.var ∧ nested_uri.anchor = [] := by
  obtain ⟨n, hbuild, hscheme, hhost, hport, hpath, hvar, hanchor'⟩ := exists_build ho hi
  obtain ⟨hrest, -, hnames⟩ := parsePath_joined _ inner_uri.queryStr
    (isPathEnd_buildParts inner_uri hend) fun c hc => by
      rw [← tailStr_of_anchor hanchor] at hc
      exact head?_tailStr hc
  rw [hrest, parseQuery_of_anchor hanchor] at hvar hanchor'
  rw [← hpath, walkOf_buildParts hi] at hnames
  refine ⟨n, hbuild, hscheme, hhost, hport, ?_, names_eq hnames, hvar, hanchor'⟩
  rw [hpath]
  exact isNull_parsePath _

/-! ### What is got back -/

section Cut

variable {before after rest : List Datum} {first : Datum}

/-- Names which are escaped and unescaped again lead where they did. -/
theorem walkOf_escape (hname : ∀ name ∈ name_db, IsName name) (hsepa : NoSepa name_db) :
    (walkOf (((name_db.map (escapeNotIn pathCharset)).map unescape).flatMap splitSepa)).down =
      name_db := by
  rw [map_unescape_escape, flatMap_splitSepa hsepa, walkOf_down hname]

theorem isPathEnd_escape : ∀ part ∈ name_db.map (escapeNotIn pathCharset), ∀ c ∈ part,
    isPathEnd c = false := by
  intro part hpart c hc
  obtain ⟨name, -, rfl⟩ := List.mem_map.1 hpart
  exact isPathEnd_of_mem_escapeNotIn rfl rfl hc

/-- The uri in front of the separator. -/
theorem exists_front (hname : ∀ name ∈ before, IsName name) (hsepa : NoSepa before) :
    ∃ tmp_uri, HttpUri.ofString (httpPrefix ++ u.hostportStr ++
      joined (before.map (escapeNotIn pathCharset))) = some tmp_uri ∧
        tmp_uri.path.name_db = [] :: before := by
  obtain ⟨tmp, htmp, -, -, -, hpath, -⟩ := ofString_hostport u .http
    (joined (before.map (escapeNotIn pathCharset))) fun c hc => by
      rw [← List.append_nil (joined _)] at hc
      exact .inl ((head?_joined hc).resolve_right nofun)
  obtain ⟨-, -, hnames⟩ := parsePath_joined (before.map (escapeNotIn pathCharset)) []
    isPathEnd_escape nofun
  rw [List.append_nil, ← hpath, walkOf_escape hname hsepa] at hnames
  exact ⟨tmp, htmp, hnames⟩

theorem parseOutter_eq (hscheme : u.scheme = .http) (hnull : u.path.isNull = false)
    (hnames : u.names = before ++ httpName :: after) (hne : after ≠ [])
    (hbefore : httpName ∉ before) (hhostport : u.hostportStr ≠ httpNameEsc) :
    parseOutter u = (((before.map pathName).dropWhile notEsc).mapM outterVar).bind fun vars =>
      HttpUri.ofString (outterString u.hostportStr
        ([47] :: (before.map pathName).takeWhile notEsc) vars) := by
  obtain ⟨pos, hpos, htake, -⟩ :=
    findSubstr_toString hscheme hnull hnames hne hbefore hhostport
  have hmem : ∀ {name}, name ∈ before → name ∈ u.names := fun hname =>
    hnames ▸ List.mem_append_left _ hname
  obtain ⟨tmp, htmp, hpath⟩ := exists_front (u := u)
    (fun name hname => isName_of_mem_names (hmem hname))
    fun name hname => noSepa_names hnull name (hmem hname)
  rw [parseOutter, hpos, Option.bind_some, htake, htmp, Option.bind_some, pathNames_eq hpath]
  rfl

theorem parseInner_eq (hscheme : u.scheme = .http) (hnull : u.path.isNull = false)
    (hnames : u.names = before ++ httpName :: first :: rest) (hbefore : httpName ∉ before)
    (hhostport : u.hostportStr ≠ httpNameEsc) :
    parseInner u =
      HttpUri.ofString (httpPrefix ++ (first ++ (joined rest ++ unescape (tailStr u)))) := by
  obtain ⟨pos, hpos, -, hdrop⟩ := findSubstr_toString hscheme hnull hnames
    (List.cons_ne_nil _ _) hbefore hhostport
  have hunescape : unescape (u.toString.drop (pos + 9)) =
      first ++ (joined rest ++ unescape (tailStr u)) := by
    have heq := congrArg unescape hdrop
    rw [unescape_cons_of_ne (by decide), ← escapeNotIn_joined,
      unescape_escapeNotIn_append unreserved_spec.2, joined_cons, List.cons_append,
      List.append_assoc] at heq
    exact (List.cons.inj heq).2
  rw [parseInner, hpos, Option.bind_some, unescape_append_of_notMem (by decide), hunescape]

end Cut

end HttpNestedUri

end Neoip
