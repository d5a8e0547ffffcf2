/-
Neoip/HttpNestedUri.lean

Nested uris: `http_nested_uri_t`.

The outer uri becomes the front of the path of the nested one, its variables names
which begin with a mark, and the inner uri is what follows the name `http:`.  Both
are got back from the string of the nested uri, cut where this name is first found
in its escaped form.  The size of a null path runs into an assertion: an outer uri
whose path was cleared is not accepted, and where the front is no uri, nothing is
got back.  The uris are those of `HttpUri`, so the keys of the variables are not
asserted.
-/
import Neoip.JoinedNames

namespace Neoip
namespace HttpNestedUri

open HttpUri

/-- `ESC_STRING`: `*` -/
def escString : UInt8 := 42

/-- `http:` -/
def httpName : Datum := [104, 116, 116, 112, 58]

/-- The separator escaped as it is in the path: `/http%3a/` -/
def separatorEsc : Datum := [47, 104, 116, 116, 112, 37, 51, 97, 47]

/-- `http://` -/
def httpPrefix : Datum := HttpScheme.http.toString ++ schemeSepa

/-- The strings `uri_path[i].to_string()`. -/
def pathNames (path : FilePath) : List Datum :=
  (List.range path.size).filterMap fun i => (path.get i).map FilePath.toString

/-- The name does not begin with the mark. -/
def notEsc (path_name : Datum) : Bool := path_name.head? ≠ some escString

def isValidOutter (outter_uri : HttpUri) : Bool :=
  !outter_uri.path.isNull && (findSubstr separatorEsc outter_uri.pathStr).isNone &&
    (pathNames outter_uri.path).all notEsc &&
      outter_uri.var.all (fun item => escString ∉ item.key ∧ escString ∉ item.val) &&
        outter_uri.anchor = []

/-- A variable as a name; it is escaped twice against the unescaping of the constructor. -/
def varName (item : StrvarItem) : Datum :=
  escString :: (escapeNotIn unreserved (escapeNotIn unreserved item.key) ++
    escString :: escapeNotIn unreserved (escapeNotIn unreserved item.val))

/-- The string of `build`. -/
def buildString (outter_uri inner_uri : HttpUri) : Datum :=
  httpPrefix ++ outter_uri.hostportStr ++ outter_uri.path.toString ++
    (outter_uri.var.flatMap fun item => 47 :: varName item) ++ 47 :: httpName ++
      47 :: inner_uri.hostportStr ++ 47 :: inner_uri.pathqueryStr

def build (outter_uri inner_uri : HttpUri) : Option HttpUri :=
  HttpUri.ofString (buildString outter_uri inner_uri)

def parseInner (nested_uri : HttpUri) : Option HttpUri :=
  (findSubstr separatorEsc nested_uri.toString).bind fun separator_pos =>
    HttpUri.ofString (unescape (httpPrefix ++ nested_uri.toString.drop (separator_pos + 9)))

/-- A variable from its name; none when it is not made of the mark, a key, the mark and a value. -/
def outterVar (path_name : Datum) : Option Datum :=
  if notEsc path_name then none
  else match path_name.splitOn escString with
    | [_, key, val] => some (key ++ 61 :: val)
    | _ => none

/-- The names before the first one with the mark, each after a separator, one more of them when
there is a mark, and the variables. -/
def outterString (hostport_str : Datum) (path_names vars : List Datum) : Datum :=
  httpPrefix ++ hostport_str ++ joined path_names ++
    if vars ≠ [] then 47 :: 63 :: [38].intercalate vars else []

def parseOutter (nested_uri : HttpUri) : Option HttpUri :=
  (findSubstr separatorEsc nested_uri.toString).bind fun separator_pos =>
    (HttpUri.ofString (nested_uri.toString.take separator_pos)).bind fun tmp_uri =>
      (((pathNames tmp_uri.path).dropWhile notEsc).mapM outterVar).bind fun vars =>
        HttpUri.ofString (outterString nested_uri.hostportStr
          ((pathNames tmp_uri.path).takeWhile notEsc) vars)

/-! ### What is lost -/

/-- A part of a uri which the second unescaping leaves alone, and which does not end the path. -/
def CleanName (name : Datum) : Prop :=
  unescape name = name ∧ ∀ c ∈ name, isPathEnd c = false

/-- A port which `atoi` gives back. -/
def CleanPort (u : HttpUri) : Prop := u.port < 2 ^ 31 ∨ u.port = 2 ^ 64 - 1

/-- An outer uri of which nothing is lost. -/
structure CleanOutter (outter_uri : HttpUri) : Prop where
  scheme : outter_uri.scheme = .http
  hostport : outter_uri.hostportStr ≠ [104, 116, 116, 112, 37, 51, 97]
  port : CleanPort outter_uri
  names : ∀ name ∈ outter_uri.path.name_db, CleanName name ∧ name.head? ≠ some 58
  http : httpName ∉ outter_uri.path.name_db

/-- A variable which is read back though it is unescaped before it is cut. -/
structure CleanVar (item : StrvarItem) : Prop where
  key : unescape item.key = item.key ∧ 61 ∉ item.key
  val : unescape item.val = item.val
  cut : ∀ c ∈ item.key ++ item.val, c ≠ 35 ∧ c ≠ 38

/-- An inner uri of which nothing is lost. -/
structure CleanInner (inner_uri : HttpUri) : Prop where
  path : inner_uri.path.isNull = false
  port : CleanPort inner_uri
  hostport : unescape inner_uri.host = inner_uri.host ∧ 92 ∉ inner_uri.host ∧
    inner_uri.hostportStr ≠ dirPlaceholder ∧ inner_uri.hostportStr ≠ dirParent
  names : ∀ name ∈ inner_uri.path.name_db, CleanName name
  vars : ∀ item ∈ inner_uri.var, CleanVar item

end HttpNestedUri
end Neoip
