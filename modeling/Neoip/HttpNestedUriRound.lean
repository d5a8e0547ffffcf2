/-
Neoip/HttpNestedUriRound.lean

Nested uris of which nothing is lost.

What is on either side of the separator is read again as a uri: it is the inner one
when its query has a form which is kept, and the outer one when no name is taken for a
variable.
-/
import Neoip.HttpNestedUriCut

namespace Neoip

namespace HttpNestedUri

open HttpUri

variable {u nested_uri outter_uri inner_uri : HttpUri} {name_db : List Datum} {name : Datum}

/-! ### Nothing is lost of the inner uri -/

/-- A variable, not escaped. -/
def rawVar (item : StrvarItem) : Datum := item.key ++ if item.val ≠ [] then 61 :: item.val else []

def rawQuery (var : List StrvarItem) : Datum :=
  if var ≠ [] then 63 :: [38].intercalate (var.map rawVar) else []

theorem unescape_varStr_append (item : StrvarItem) (rest : Datum) :
    unescape (varStr item ++ rest) = rawVar item ++ unescape rest := by
  rw [varStr, rawVar, List.append_assoc, unescape_escapeNotIn_append unreserved_spec.1,
    List.append_assoc]
  split_ifs
  · rw [List.cons_append, unescape_cons_of_ne (by decide),
      unescape_escapeNotIn_append unreserved_spec.1]
    rfl
  · rfl

theorem unescape_queryStr (u : HttpUri) : unescape u.queryStr = rawQuery u.var := by
  have hjoin : ∀ var : List StrvarItem, unescape ([38].intercalate (var.map varStr)) =
      [38].intercalate (var.map rawVar) := by
    intro var
    induction var with
    | nil => rfl
    | cons item var ih =>
      cases var with
      | nil =>
        have hsingle := unescape_varStr_append item []
        rw [List.append_nil, unescape_nil, List.append_nil] at hsingle
        simpa using hsingle
      | cons next var =>
        simp only [List.map_cons, List.intercalate_cons_cons, List.append_assoc] at ih ⊢
        rw [unescape_varStr_append, List.singleton_append, unescape_cons_of_ne (by decide), ih]
        rfl
  rw [queryStr, rawQuery]
  split_ifs
  · rw [unescape_cons_of_ne (by decide), hjoin]
  · rfl

theorem CleanVar.parseVar {item : StrvarItem} (h : CleanVar item) :
    parseVar (rawVar item) = item := by
  rw [rawVar, parseVar_append h.key.2, h.key.1, h.val]

theorem CleanVar.notMem {item : StrvarItem} (h : CleanVar item) :
    35 ∉ rawVar item ∧ 38 ∉ rawVar item := by
  have hmem : ∀ c, c ≠ 61 → c ∈ rawVar item → c ∈ item.key ++ item.val := by
    intro c hne hc
    rcases List.mem_append.1 hc with hc | hc
    · exact List.mem_append_left _ hc
    · split_ifs at hc
      · exact List.mem_append_right _ ((List.mem_cons.1 hc).resolve_left hne)
      · cases hc
  exact ⟨fun hc => (h.cut 35 (hmem 35 (by decide) hc)).1 rfl,
    fun hc => (h.cut 38 (hmem 38 (by decide) hc)).2 rfl⟩

theorem parseQuery_rawQuery {var : List StrvarItem} (h : ∀ item ∈ var, CleanVar item) :
    parseQuery (rawQuery var) = (var, []) := by
  rw [rawQuery]
  split_ifs with hvar
  · have hstrs : ∀ str ∈ var.map rawVar, 35 ∉ str ∧ 38 ∉ str := by
      intro str hstr
      obtain ⟨item, hitem, rfl⟩ := List.mem_map.1 hstr
      exact (h item hitem).notMem
    have hquery := parseQuery_intercalate [] (by simpa using hvar) hstrs nofun
    rw [List.append_nil, List.map_map] at hquery
    rw [hquery]
    exact Prod.ext ((List.map_congr_left fun item hitem => (h item hitem).parseVar).trans
      (List.map_id var)) rfl
  · rw [not_not] at hvar
    rw [hvar]
    rfl

theorem head?_rawQuery {var : List StrvarItem} {c : UInt8} (h : (rawQuery var).head? = some c) :
    isPathEnd c = true := by
  rw [rawQuery] at h
  split_ifs at h
  · obtain rfl := Option.some.inj h
    rfl
  · cases h

theorem mem_name_db (h : u.path.isNull = false) : name ∈ u.names → name ∈ u.path.name_db :=
  fun hname => (rooted h).2 ▸ List.mem_cons_of_mem _ hname

/-- Names which the unescaping leaves alone lead where they did. -/
theorem walkOf_clean (hname : ∀ name ∈ name_db, IsName name) (hsepa : NoSepa name_db)
    (hclean : ∀ name ∈ name_db, CleanName name) :
    (walkOf ((name_db.map unescape).flatMap splitSepa)).down = name_db := by
  have hmap : name_db.map unescape = name_db :=
    (List.map_congr_left fun name hn => (hclean name hn).1).trans (List.map_id name_db)
  rw [hmap, flatMap_splitSepa hsepa, walkOf_down hname]

/-- **The inner uri**, from a string with its host, its names and its variables. -/
theorem ofString_inner (hscheme : inner_uri.scheme = .http) (hanchor : inner_uri.anchor = [])
    (hclean : CleanInner inner_uri) :
    HttpUri.ofString (httpPrefix ++ (inner_uri.hostportStr ++
      (joined inner_uri.names ++ rawQuery inner_uri.var))) = some inner_uri := by
  obtain ⟨v, hv, hscheme', hhost, hport, hpath, hvar, hanchor'⟩ :=
    ofString_hostport inner_uri .http (joined inner_uri.names ++ rawQuery inner_uri.var)
      fun c hc => (head?_joined hc).imp_right head?_rawQuery
  obtain ⟨hrest, -, hnames⟩ := parsePath_joined inner_uri.names
    (rawQuery inner_uri.var)
    (fun name hname => (hclean.names name (mem_name_db hclean.path hname)).2)
    fun c => head?_rawQuery
  rw [hrest, parseQuery_rawQuery hclean.vars] at hvar hanchor'
  rw [walkOf_clean (fun _ => isName_of_mem_names) (noSepa_names hclean.path)
    fun name hname => hclean.names name (mem_name_db hclean.path hname), ← hpath] at hnames
  have hnull : v.path.isNull = false := by
    rw [hpath]
    exact isNull_parsePath _
  rw [← List.append_assoc httpPrefix]
  refine hv.trans (congrArg some (HttpUri.ext (hscheme'.trans hscheme.symm) hhost ?_ ?_ hvar
    (hanchor'.trans hanchor.symm)))
  · rw [hport, ← hscheme]
    exact inner_uri.portBack_eq_iff.2 hclean.port
  · exact path_eq hnull hclean.path (names_eq hnames)

/-! ### Nothing is lost of the outer uri -/

/-- What `is_valid_outter` asks for, the separator apart. -/
theorem of_isValidOutter (h : isValidOutter outter_uri = true) :
    outter_uri.path.isNull = false ∧ (∀ name ∈ outter_uri.names, notEsc (pathName name) = true) ∧
      (∀ item ∈ outter_uri.var, escString ∉ item.key ∧ escString ∉ item.val) ∧
        outter_uri.anchor = [] := by
  simp only [isValidOutter, Bool.and_eq_true, Bool.not_eq_true', List.all_eq_true,
    decide_eq_true_eq] at h
  obtain ⟨⟨⟨⟨hnull, -⟩, hnames⟩, hvar⟩, hanchor⟩ := h
  refine ⟨hnull, fun name hname => hnames _ ?_, hvar, hanchor⟩
  rw [pathNames_eq (rooted hnull).2]
  exact List.mem_cons_of_mem _ (List.mem_map_of_mem hname)

theorem pathName_varEsc (item : StrvarItem) : pathName (varEsc item) = varEsc item :=
  pathName_of_notMem (isName_varEsc item).1 (fun _ => isSepa_of_mem_varEsc)
    (notMem_varEsc rfl (by decide) rfl item)

theorem map_pathName_vars (var : List StrvarItem) :
    (var.map varEsc).map pathName = var.map varEsc := by
  rw [List.map_map]
  exact List.map_congr_left fun item _ => pathName_varEsc item

/-- The names are cut where the variables begin. -/
theorem takeWhile_notEsc {names : List Datum} (h : ∀ name ∈ names, notEsc name = true)
    (var : List StrvarItem) : (names ++ var.map varEsc).takeWhile notEsc = names ∧
      (names ++ var.map varEsc).dropWhile notEsc = var.map varEsc := by
  rw [List.takeWhile_append_of_pos h, List.dropWhile_append_of_pos h]
  cases var with
  | nil => exact ⟨List.append_nil names, rfl⟩
  | cons item var => exact ⟨List.append_nil names, rfl⟩

/-- A variable as it is put behind the names. -/
def outVar (item : StrvarItem) : Datum :=
  escapeNotIn unreserved item.key ++ 61 :: escapeNotIn unreserved item.val

theorem outterVar_varEsc {item : StrvarItem} (h : escString ∉ item.key ∧ escString ∉ item.val) :
    outterVar (varEsc item) = some (outVar item) := by
  have hsplit : (varEsc item).splitOn escString =
      [[], escapeNotIn unreserved item.key, escapeNotIn unreserved item.val] := by
    have hjoin : varEsc item = [escString].intercalate
        [[], escapeNotIn unreserved item.key, escapeNotIn unreserved item.val] := by
      simp [varEsc, List.intercalate_cons_cons]
    rw [hjoin]
    refine List.splitOn_intercalate escString ?_ (List.cons_ne_nil _ _)
    intro str hstr
    simp only [List.mem_cons, List.not_mem_nil, or_false] at hstr
    rcases hstr with rfl | rfl | rfl
    · exact List.not_mem_nil
    · exact fun hmem => h.1 (mem_of_mem_escapeNotIn (by decide) rfl hmem)
    · exact fun hmem => h.2 (mem_of_mem_escapeNotIn (by decide) rfl hmem)
  have hesc : notEsc (varEsc item) = false := rfl
  rw [outterVar, hesc, if_neg Bool.false_ne_true, hsplit]
  rfl

theorem mapM_outterVar {var : List StrvarItem}
    (h : ∀ item ∈ var, escString ∉ item.key ∧ escString ∉ item.val) :
    (var.map varEsc).mapM outterVar = some (var.map outVar) := by
  induction var with
  | nil => rfl
  | cons item var ih =>
    rw [List.map_cons, List.mapM_cons, outterVar_varEsc (h item (List.mem_cons_self ..)),
      ih fun i hi => h i (List.mem_cons_of_mem _ hi)]
    rfl

theorem parseQuery_outVar {var : List StrvarItem} (hvar : var ≠ []) :
    parseQuery (63 :: [38].intercalate (var.map outVar)) = (var, []) := by
  have hmem : ∀ {c : UInt8} (item : StrvarItem), unreserved c = false → c ≠ 37 →
      isXdigit c = false → c ≠ 61 → c ∉ outVar item := by
    intro c item hset hne hdigit heq hc
    rcases List.mem_append.1 hc with hc | hc
    · exact notMem_escapeNotIn hset hne hdigit hc
    · exact notMem_escapeNotIn hset hne hdigit ((List.mem_cons.1 hc).resolve_left heq)
  have hstrs : ∀ str ∈ var.map outVar, 35 ∉ str ∧ 38 ∉ str := by
    intro str hstr
    obtain ⟨item, -, rfl⟩ := List.mem_map.1 hstr
    exact ⟨hmem item rfl (by decide) rfl (by decide), hmem item rfl (by decide) rfl (by decide)⟩
  have hparse : ∀ item : StrvarItem, parseVar (outVar item) = item := by
    intro item
    have hkey : 61 ∉ escapeNotIn unreserved item.key :=
      notMem_escapeNotIn (by decide) (by decide) (by decide)
    rw [outVar, parseVar_append_cons hkey, unescape_escapeNotIn unreserved_spec.1,
      unescape_escapeNotIn unreserved_spec.1]
  have hquery := parseQuery_intercalate [] (by simpa using hvar) hstrs nofun
  rw [List.append_nil, List.map_map] at hquery
  rw [hquery]
  exact Prod.ext ((List.map_congr_left fun item _ => hparse item).trans (List.map_id var)) rfl

/-- A name leads where its string as a path does. -/
theorem walkOf_pathName (hname : IsName name) (hsepa : ∀ c ∈ name, isSepa c = false)
    (hclean : CleanName name ∧ name.head? ≠ some 58) :
    walkOf (splitSepa (unescape (pathName name))) = Walk.child name := by
  have hwalk : walkOf [name] = Walk.child name := by
    rw [walkOf_cons, hname.stepOf, walkOf_nil, mul_one]
  rcases pathName_cases hname.1 hsepa with ⟨-, heq | heq⟩ | ⟨rest, rfl, -⟩
  · rw [heq, hclean.1.1, splitSepa_eq_singleton hsepa, hwalk]
  · rw [heq, unescape_append_cons (by decide) rfl, hclean.1.1, splitSepa_append_cons _ _ rfl,
      splitSepa_eq_singleton hsepa, walkOf_append, hwalk]
    exact mul_one _
  · exact absurd rfl hclean.2

theorem walkOf_pathNames (hname : ∀ name ∈ name_db, IsName name) (hsepa : NoSepa name_db)
    (hclean : ∀ name ∈ name_db, CleanName name ∧ name.head? ≠ some 58) :
    walkOf (((name_db.map pathName).map unescape).flatMap splitSepa) = walkOf name_db := by
  induction name_db with
  | nil => rfl
  | cons name name_db ih =>
    have hmem := List.mem_cons_self (a := name) (l := name_db)
    rw [List.map_cons, List.map_cons, List.flatMap_cons, walkOf_append,
      walkOf_pathName (hname name hmem) (hsepa name hmem) (hclean name hmem), walkOf_cons,
      (hname name hmem).stepOf, ih (fun n hn => hname n (List.mem_cons_of_mem _ hn))
        (fun n hn => hsepa n (List.mem_cons_of_mem _ hn))
        fun n hn => hclean n (List.mem_cons_of_mem _ hn)]

/-- The string of the outer uri, as one of parts. -/
theorem outterString_eq (hostport_str : Datum) (path_names vars : List Datum) :
    outterString hostport_str path_names vars = httpPrefix ++ hostport_str ++
      (joined (path_names ++ if vars ≠ [] then [[]] else []) ++
        if vars ≠ [] then 63 :: [38].intercalate vars else []) := by
  rw [outterString, joined_append]
  split_ifs
  · simp only [joined_cons, joined_nil, List.append_assoc, List.cons_append, List.nil_append]
  · simp only [joined_nil, List.append_nil]

/-- The parts of this string, for the variables of the uri. -/
def outterParts (outter_uri : HttpUri) : List Datum :=
  ([47] :: outter_uri.names.map pathName) ++ if outter_uri.var.map outVar ≠ [] then [[]] else []

def outterQuery (outter_uri : HttpUri) : Datum :=
  if outter_uri.var.map outVar ≠ [] then 63 :: [38].intercalate (outter_uri.var.map outVar) else []

theorem head?_outterQuery {c : UInt8} (h : (outterQuery outter_uri).head? = some c) :
    isPathEnd c = true := by
  rw [outterQuery] at h
  split_ifs at h
  · obtain rfl := Option.some.inj h
    rfl
  · cases h

theorem parseQuery_outterQuery (outter_uri : HttpUri) :
    parseQuery (outterQuery outter_uri) = (outter_uri.var, []) := by
  rw [outterQuery]
  split_ifs with hvar
  · exact parseQuery_outVar (by simpa using hvar)
  · rw [not_not, List.map_eq_nil_iff] at hvar
    rw [hvar]
    rfl

/-- No part ends the path, as the names are clean. -/
theorem isPathEnd_outterParts (hnull : outter_uri.path.isNull = false)
    (hclean : ∀ name ∈ outter_uri.names, CleanName name ∧ name.head? ≠ some 58) :
    ∀ part ∈ outterParts outter_uri, ∀ c ∈ part, isPathEnd c = false := by
  intro part hpart c hc
  rcases List.mem_append.1 hpart with hpart | hpart
  · rcases List.mem_cons.1 hpart with rfl | hpart
    · rw [List.mem_singleton.1 hc]
      rfl
    · obtain ⟨name, hn, rfl⟩ := List.mem_map.1 hpart
      rcases pathName_cases (isName_of_mem_names hn).1 (noSepa_names hnull name hn) with
        ⟨-, heq | heq⟩ | ⟨rest, rfl, -⟩
      · exact (hclean name hn).1.2 c (heq ▸ hc)
      · rw [heq] at hc
        rcases List.mem_append.1 hc with hc | hc
        · exact (hclean name hn).1.2 c hc
        · rw [List.mem_singleton.1 hc]
          rfl
      · exact absurd rfl (hclean _ hn).2
  · split_ifs at hpart
    · rw [List.mem_singleton.1 hpart] at hc
      cases hc
    · cases hpart

/-- They lead where the names do. -/
theorem walkOf_outterParts (hnull : outter_uri.path.isNull = false)
    (hclean : ∀ name ∈ outter_uri.names, CleanName name ∧ name.head? ≠ some 58) :
    walkOf (((outterParts outter_uri).map unescape).flatMap splitSepa) =
      walkOf outter_uri.names := by
  have hlast : walkOf (((if outter_uri.var.map outVar ≠ [] then [[]] else [] :
      List Datum).map unescape).flatMap splitSepa) = 1 := by
    split_ifs
    · decide
    · rfl
  have hroot : walkOf (splitSepa (unescape [47])) = 1 := by decide
  rw [outterParts, List.map_append, List.flatMap_append, walkOf_append, hlast, mul_one,
    List.map_cons, List.flatMap_cons, walkOf_append, hroot, one_mul,
    walkOf_pathNames (fun _ => isName_of_mem_names) (noSepa_names hnull) hclean]

/-- **The outer uri**, from a string with its host, its names and its variables. -/
theorem ofString_outter (hvalid : isValidOutter outter_uri = true)
    (hclean : CleanOutter outter_uri) (hscheme : u.scheme = .http)
    (hhost : u.host = outter_uri.host) (hport : u.port = outter_uri.port) :
    HttpUri.ofString (outterString u.hostportStr ([47] :: outter_uri.names.map pathName)
      (outter_uri.var.map outVar)) = some outter_uri := by
  obtain ⟨hnull, -, -, hanchor⟩ := of_isValidOutter hvalid
  have hnames : ∀ name ∈ outter_uri.names, CleanName name ∧ name.head? ≠ some 58 :=
    fun name hn => hclean.names name (mem_name_db hnull hn)
  obtain ⟨v, hv, hscheme', hhost', hport', hpath, hvar, hanchor'⟩ :=
    ofString_hostport u .http (joined (outterParts outter_uri) ++ outterQuery outter_uri)
      fun c hc => (head?_joined hc).imp_right head?_outterQuery
  obtain ⟨hrest, -, hdb⟩ := parsePath_joined (outterParts outter_uri) (outterQuery outter_uri)
    (isPathEnd_outterParts hnull hnames) fun c => head?_outterQuery
  rw [hrest, parseQuery_outterQuery] at hvar hanchor'
  rw [walkOf_outterParts hnull hnames, walkOf_down fun _ => isName_of_mem_names, ← hpath] at hdb
  have hnull' : v.path.isNull = false := by
    rw [hpath]
    exact isNull_parsePath _
  rw [outterString_eq]
  refine hv.trans (congrArg some (HttpUri.ext (hscheme'.trans hclean.scheme.symm)
    (hhost'.trans hhost) ?_ ?_ hvar (hanchor'.trans hanchor.symm)))
  · rw [hport', ← hport, ← hscheme]
    refine u.portBack_eq_iff.2 ?_
    rw [hport]
    exact hclean.port
  · exact path_eq hnull' hnull (names_eq hdb)

/-! ### Both are got back -/

theorem hostportStr_eq (hscheme : u.scheme = outter_uri.scheme) (hhost : u.host = outter_uri.host)
    (hport : u.port = outter_uri.port) : u.hostportStr = outter_uri.hostportStr := by
  rw [hostportStr, hostportStr, hscheme, hhost, hport]

theorem hostportStr_ne_nil (u : HttpUri) : u.hostportStr ≠ [] := fun h =>
  u.host_ne (List.append_eq_nil_iff.1 h).1

theorem portStr_spec (u : HttpUri) : ∀ c ∈ u.portStr, isSepa c = false ∧ c ≠ 37 := by
  intro c hc
  rw [portStr] at hc
  split_ifs at hc
  · rcases List.mem_cons.1 hc with rfl | hc
    · decide
    · have hdigit := Bencode.isDigit_decimal hc
      constructor
      · rw [Bool.eq_false_iff]
        intro hsepa
        rw [isSepa, Bool.or_eq_true, decide_eq_true_iff, decide_eq_true_iff] at hsepa
        rcases hsepa with rfl | rfl
        · exact absurd hdigit (by decide)
        · exact absurd hdigit (by decide)
      · rintro rfl
        exact absurd hdigit (by decide)
  · cases hc

/-- Only the host of a host and port is unescaped. -/
theorem unescape_hostportStr_eq (u : HttpUri) :
    unescape u.hostportStr = unescape u.host ++ u.portStr := by
  have hport : 37 ∉ u.portStr := fun hmem => (portStr_spec u 37 hmem).2 rfl
  show unescape (u.host ++ u.portStr) = _
  rcases hstr : u.portStr with - | ⟨c, digits⟩
  · rw [List.append_nil, List.append_nil]
  · have hc : c = 58 := by
      rw [portStr] at hstr
      split_ifs at hstr
      exact (List.cons.inj hstr).1.symm
    subst hc
    rw [hstr] at hport
    rw [unescape_append_cons (by decide) rfl,
      unescape_of_notMem fun hmem => hport (List.mem_cons_of_mem _ hmem)]

theorem unescape_hostportStr (h : unescape u.host = u.host) :
    unescape u.hostportStr = u.hostportStr := by
  rw [unescape_hostportStr_eq, h]
  rfl

theorem isSepa_hostportStr (h : 92 ∉ u.host) : ∀ c ∈ u.hostportStr, isSepa c = false := by
  intro c hc
  rcases List.mem_append.1 (show c ∈ u.host ++ u.portStr from hc) with hc | hc
  · have hdelim := u.host_delim c hc
    rw [Bool.eq_false_iff]
    intro hsepa
    rw [isSepa, Bool.or_eq_true, decide_eq_true_iff, decide_eq_true_iff] at hsepa
    rcases hsepa with rfl | rfl
    · exact Bool.false_ne_true (hdelim.symm.trans rfl)
    · exact h hc
  · exact (portStr_spec u c hc).1

/-- The front leads to the names of the outer uri and its variables, when the names are left alone
by the unescaping. -/
theorem outterWalk_eq (hnull : outter_uri.path.isNull = false)
    (h : ∀ name ∈ outter_uri.names, unescape name = name) :
    outterWalk outter_uri = ⟨0, outter_uri.names ++ outter_uri.var.map varEsc⟩ := by
  have hmap : (FilePath.nameParts outter_uri.names).map unescape =
      FilePath.nameParts outter_uri.names := by
    refine (List.map_congr_left fun name hn => ?_).trans (List.map_id _)
    rcases FilePath.mem_nameParts hn with rfl | hn
    · rfl
    · exact h name hn
  have hsepa : NoSepa (FilePath.nameParts outter_uri.names) := by
    intro name hn
    rcases FilePath.mem_nameParts hn with rfl | hn
    · simp
    · exact noSepa_names hnull name hn
  rw [outterWalk, hmap, flatMap_splitSepa hsepa, FilePath.walkOf_nameParts,
    walkOf_down fun _ => isName_of_mem_names, Walk.mul_of_up_eq_zero _ rfl]

/-- **Clean uris**: both are got back from what `build` makes of them. -/
theorem round_of_clean (hvalid : isValidOutter outter_uri = true)
    (hscheme : inner_uri.scheme = .http) (hanchor : inner_uri.anchor = [])
    (ho : CleanOutter outter_uri) (hi : CleanInner inner_uri) :
    ∃ nested_uri, build outter_uri inner_uri = some nested_uri ∧
      parseInner nested_uri = some inner_uri ∧ parseOutter nested_uri = some outter_uri := by
  obtain ⟨hnull, hesc, hvars, -⟩ := of_isValidOutter hvalid
  have hnames : ∀ name ∈ outter_uri.names, CleanName name ∧ name.head? ≠ some 58 :=
    fun name hn => ho.names name (mem_name_db hnull hn)
  obtain ⟨n, hbuild, hnscheme, hnhost, hnport, hnnull, hnnames, hnvar, hnanchor⟩ :=
    build_eq hnull hi.path hanchor fun name hn => (hnames name hn).1.2
  have hport : n.port = outter_uri.port := by
    rw [hnport, ← ho.scheme]
    exact outter_uri.portBack_eq_iff.2 ho.port
  have hostport := hostportStr_eq (hnscheme.trans ho.scheme.symm) hnhost hport
  have houtter := outterWalk_eq hnull fun name hn => (hnames name hn).1.1
  have hinner : innerWalk inner_uri = ⟨0, inner_uri.hostportStr :: inner_uri.names⟩ := by
    have hsplit : splitSepa inner_uri.hostportStr = [inner_uri.hostportStr] :=
      splitSepa_eq_singleton (isSepa_hostportStr hi.hostport.2.1)
    have hname : IsName inner_uri.hostportStr :=
      ⟨hostportStr_ne_nil inner_uri, hi.hostport.2.2⟩
    rw [innerWalk, unescape_hostportStr hi.hostport.1, hsplit, walkOf_cons, hname.stepOf,
      walkOf_nil, mul_one, Walk.mul_of_up_eq_zero _ rfl]
    rfl
  have hcut : n.names = (outter_uri.names ++ outter_uri.var.map varEsc) ++
      httpName :: inner_uri.hostportStr :: inner_uri.names := by
    rw [hnnames, houtter, hinner, Walk.child_mul rfl, Walk.mul_of_up_eq_zero _ rfl]
  -- no name before the inner uri could be taken for its scheme
  have hbefore : httpName ∉ outter_uri.names ++ outter_uri.var.map varEsc := by
    intro hmem
    rcases List.mem_append.1 hmem with hmem | hmem
    · exact ho.http (mem_name_db hnull hmem)
    · obtain ⟨item, -, heq⟩ := List.mem_map.1 hmem
      exact absurd (List.cons.inj heq).1 (by decide)
  have hne : n.hostportStr ≠ httpNameEsc := hostport ▸ ho.hostport
  refine ⟨n, hbuild, ?_, ?_⟩
  · have htail : tailStr n = inner_uri.queryStr := by
      rw [tailStr_of_anchor hnanchor, queryStr, queryStr, hnvar]
    rw [parseInner_eq hnscheme hnnull hcut hbefore hne, htail, unescape_queryStr]
    exact ofString_inner hscheme hanchor hi
  · have hall : ∀ path_name ∈ outter_uri.names.map pathName, notEsc path_name = true := by
      intro path_name hmem
      obtain ⟨name, hname, rfl⟩ := List.mem_map.1 hmem
      exact hesc name hname
    obtain ⟨htake, hdrop⟩ := takeWhile_notEsc hall outter_uri.var
    rw [parseOutter_eq hnscheme hnnull hcut (List.cons_ne_nil _ _) hbefore hne, List.map_append,
      map_pathName_vars, htake, hdrop, mapM_outterVar hvars, Option.bind_some]
    exact ofString_outter hvalid ho hnscheme hnhost hport

end HttpNestedUri

end Neoip
