/-
Neoip/Peerpick.lean

Peer picking: which of the connections of a swarm are authorised to request, and
for how long.

`bt_swarm_sched_full_t` asks the `bt_peerpick_vapi_t` of the swarm for an update
when a connection wants to request, when an authorisation expires and when an
authorised connection is closed.  There are four policies.  All but `casti`
count the connections of some kinds and authorise as many more as there are
slots left, with one of the four picking functions (`Pick`); each policy below
is its list of these.

An update takes from elsewhere (`Now`): the rates of the peers, what their
`bt_utmsg` extensions said, and what `rand()` returns.  Rates are rationals here.
What is sent is left out, and of the requests nothing is modelled: neither
depends on the other.
-/
import Mathlib.Algebra.Order.Ring.Rat
import Mathlib.Data.List.Sort
import Mathlib.Data.Rat.Floor
import Neoip.Delay
import Neoip.KeyedDb
import Neoip.Run

namespace Neoip.Peerpick

/-! ### The connections -/

/-- `delay_t::val_ms`. -/
abbrev Delay := UInt64

/-- `delay_t::INFINITE`, also `delay_t::NEVER`. -/
def Delay.NEVER : Delay := Neoip.Delay.INFINITE_VAL

/-- A null `delay_t`, which `timeout_t::start` does not take. -/
def Delay.NONE : Delay := Neoip.Delay.NONE_VAL

/-- `bt_reqauth_type_t`. -/
inductive ReqauthType
  | NONE
  | DENY
  | COOP
  | HOPE
  | GIVE
  | FSTART
  | IDLE
deriving DecidableEq, Repr

def ReqauthType.authorised : ReqauthType → Bool
  | .NONE => false
  | .DENY => false
  | _ => true

/-- A `bt_swarm_full_t`, with its `bt_swarm_full_sched_t` and its `bt_swarm_full_prec_t`;
`reqauth_timeout` is the period of a timeout which is started. -/
structure Cnx where
  notified_as_open : Bool
  other_dowant_req : Bool
  local_doauth_req : Bool
  reqauth_type : ReqauthType
  reqauth_timeout : Option Delay
  reqauth_prec_xmit : ℚ

namespace Cnx

/-- `bt_swarm_full_t::start`. -/
def start : Cnx where
  notified_as_open := false
  other_dowant_req := false
  local_doauth_req := false
  reqauth_type := .DENY
  reqauth_timeout := none
  reqauth_prec_xmit := 0

/-- `bt_swarm_full_sched_t::reqauth_type`. -/
def setReqauthType (c : Cnx) (reqauth_type : ReqauthType) (expire_delay : Delay) : Cnx :=
  { c with
    reqauth_type := reqauth_type
    reqauth_timeout := if expire_delay = Delay.NONE then none else some expire_delay }

/-- `sync_doauth_req_cmd`. -/
def syncDoauthReqCmd (c : Cnx) : Cnx :=
  match c.reqauth_type with
  | .DENY => { c with local_doauth_req := false }
  | _ => { c with local_doauth_req := true }

def setReqauthPrecXmit (c : Cnx) (prec : ℚ) : Cnx := { c with reqauth_prec_xmit := prec }

/-- The connection wants to request and is not authorised. -/
def isCand (c : Cnx) : Bool := c.other_dowant_req && c.reqauth_type = .DENY

end Cnx

/-- The `full_db` of the swarm. -/
abbrev FullDb := KeyedDb ℕ Cnx

namespace FullDb

/-- How many connections have this authorisation? -/
def nb (db : FullDb) (reqauth_type : ReqauthType) : ℕ :=
  db.count fun c => c.reqauth_type = reqauth_type

def nbCand (db : FullDb) : ℕ := db.count Cnx.isCand

end FullDb

/-! ### Picking one connection -/

/-- The rates of a `bt_utmsg_byteacct_cnx_t`. -/
structure Byteacct where
  recv_rate : ℚ
  xmit_rate : ℚ

/-- `std::numeric_limits<double>::max()`. -/
def DBL_MAX : ℚ := (2 ^ 53 - 1) * 2 ^ 971

def Byteacct.rate_available (b : Byteacct) : Bool := b.recv_rate ≠ DBL_MAX

/-- What an update finds. -/
structure Now where
  recv_rate_avg : ℕ → ℚ≥0
  /-- The rates which the peer reports, if it supports `bt_utmsgtype_t::BYTEACCT`. -/
  byteacct : ℕ → Option Byteacct
  /-- `remote_fstart()`, if the peer supports `bt_utmsgtype_t::FSTART`. -/
  fstart : ℕ → Option Bool
  /-- What `rand()` returns when these are the candidates. -/
  rand : List ℕ → ℕ
  /-- `max_rate()` of the `rate_sched_t` that the swarm has for `xmit`, if any. -/
  xmit_max_rate : Option ℚ
  cnx_minrate : ℚ

namespace Now

def candidates (db : FullDb) (p : ℕ → Bool) : List ℕ :=
  (db.item.filter fun x => x.2.isCand && p x.1).map Prod.fst

def pickRandom (now : Now) (cand_full_db : List ℕ) : Option ℕ :=
  cand_full_db[now.rand cand_full_db % cand_full_db.length]?

/-- `pick_random_any`. -/
def pickRandomAny (now : Now) (db : FullDb) : Option ℕ :=
  now.pickRandom (candidates db fun _ => true)

/-- `pick_random_fstart`. -/
def pickRandomFstart (now : Now) (db : FullDb) : Option ℕ :=
  now.pickRandom (candidates db fun id => now.fstart id = some true)

/-- `pick_fastest_recv`. -/
def pickFastestRecv (now : Now) (db : FullDb) : Option ℕ :=
  (db.item.foldl (fun (acc : ℚ × Option ℕ) x =>
    -- no rate is below zero, so the first candidate is always better than none
    if x.2.isCand && acc.1 < now.recv_rate_avg x.1 then (now.recv_rate_avg x.1, some x.1)
    else acc) (-1, none)).2

/-- `pick_highest_giver`. -/
def pickHighestGiver (now : Now) (db : FullDb) : Option ℕ :=
  (db.item.foldl (fun (acc : ℚ × Option ℕ) x =>
    if x.2.isCand then
      match now.byteacct x.1 with
      | none => acc
      | some b =>
        if b.xmit_rate - b.recv_rate ≤ acc.1 then acc
        else (b.xmit_rate - b.recv_rate, some x.1)
    else acc) (0, none)).2

end Now

/-- The functions of `bt_peerpick_helper_t` which pick a connection. -/
inductive Picker
  | pick_random_any
  | pick_random_fstart
  | pick_fastest_recv
  | pick_highest_giver

def Picker.pick : Picker → Now → FullDb → Option ℕ
  | .pick_random_any => Now.pickRandomAny
  | .pick_random_fstart => Now.pickRandomFstart
  | .pick_fastest_recv => Now.pickFastestRecv
  | .pick_highest_giver => Now.pickHighestGiver

/-- Does the function pick any candidate, whatever its peer supports or gave? -/
def Picker.unrestricted : Picker → Bool
  | .pick_random_any => true
  | .pick_random_fstart => false
  | .pick_fastest_recv => true
  | .pick_highest_giver => false

/-! ### Picking as many as there are slots left -/

/-- The part of a profile which is about one kind of authorisation: `reqauth_…_timeout` and
`reqauth_…_max`, a `size_t`.  `timeout_t::start` asserts that a delay is not null. -/
structure Slot where
  timeout : Delay
  timeout_ne : timeout ≠ Delay.NONE
  max : ℕ
  max_lt : max < 2 ^ 64

/-- A call of `pick_many_cnx`: as many as `slot.max` less the connections in `counted` are picked,
and given `reqauth_type`. -/
structure Pick where
  reqauth_type : ReqauthType
  counted : ReqauthType
  slot : Slot
  prec : ℚ
  picker : Picker

namespace Pick

/-- `pick_one_cnx`. -/
def pickOneCnx (p : Pick) (id : ℕ) (db : FullDb) : FullDb :=
  db.modify id fun c =>
    ((c.setReqauthType p.reqauth_type p.slot.timeout).syncDoauthReqCmd).setReqauthPrecXmit p.prec

/-- `pick_many_cnx`. -/
def pickManyCnx (p : Pick) (now : Now) : ℕ → FullDb → FullDb
  | 0, db => db
  | nb_cnx + 1, db =>
    match p.picker.pick now db with
    | none => db
    | some id => p.pickManyCnx now nb_cnx (p.pickOneCnx id db)

/-- What the policy asserts. -/
def asserted (p : Pick) (db : FullDb) : Prop := db.nb p.counted ≤ p.slot.max

/-- `nb_…_2launch`: a `size_t` less another one. -/
def nb2launch (p : Pick) (db : FullDb) : ℕ := (p.slot.max + 2 ^ 64 - db.nb p.counted) % 2 ^ 64

end Pick

/-- All kinds are counted first, then picked in turn. -/
def pickAll (now : Now) (picks : List Pick) (db : FullDb) : FullDb :=
  picks.foldl (fun db' p => p.pickManyCnx now (p.nb2launch db) db') db

/-! ### The policies -/

/-- `bt_peerpick_plain_profile_t`. -/
structure PlainProfile where
  reqauth_coop : Slot
  reqauth_coop_prec : ℚ
  reqauth_hope : Slot
  reqauth_hope_prec : ℚ
  reqauth_give : Slot
  reqauth_give_prec : ℚ

namespace PlainProfile

/-- `peer_select_update_leech`. -/
def peerSelectUpdateLeech (profile : PlainProfile) : List Pick :=
  [{ reqauth_type := .COOP
     counted := .COOP
     slot := profile.reqauth_coop
     prec := profile.reqauth_coop_prec
     picker := .pick_fastest_recv },
   { reqauth_type := .HOPE
     counted := .HOPE
     slot := profile.reqauth_hope
     prec := profile.reqauth_hope_prec
     picker := .pick_random_any }]

/-- The connections which are counted are those in `bt_reqauth_type_t::HOPE`. -/
def peerSelectUpdateSeed (profile : PlainProfile) : List Pick :=
  [{ reqauth_type := .GIVE
     counted := .HOPE
     slot := profile.reqauth_give
     prec := profile.reqauth_give_prec
     picker := .pick_random_any }]

/-- The profile which the constructor sets. -/
def dfl : PlainProfile where
  reqauth_coop := ⟨10 * 1000, by decide, 4, by decide⟩
  reqauth_coop_prec := 1 / 2
  reqauth_hope := ⟨30 * 1000, by decide, 1, by decide⟩
  reqauth_hope_prec := 1 / 10
  reqauth_give := ⟨40 * 1000, by decide, 4, by decide⟩
  reqauth_give_prec := 1

end PlainProfile

/-- `bt_peerpick_casto_profile_t`. -/
structure CastoProfile where
  reqauth_coop : Slot
  reqauth_coop_prec : ℚ
  reqauth_hope : Slot
  reqauth_hope_prec : ℚ
  reqauth_fstart : Slot
  reqauth_fstart_prec : ℚ
  reqauth_idle : Slot
  reqauth_idle_prec : ℚ

/-- `bt_peerpick_casto_t::peerpick_update`. -/
def CastoProfile.peerpickUpdate (profile : CastoProfile) : List Pick :=
  [{ reqauth_type := .COOP
     counted := .COOP
     slot := profile.reqauth_coop
     prec := profile.reqauth_coop_prec
     picker := .pick_fastest_recv },
   { reqauth_type := .HOPE
     counted := .HOPE
     slot := profile.reqauth_hope
     prec := profile.reqauth_hope_prec
     picker := .pick_random_any },
   { reqauth_type := .FSTART
     counted := .FSTART
     slot := profile.reqauth_fstart
     prec := profile.reqauth_fstart_prec
     picker := .pick_random_fstart },
   { reqauth_type := .IDLE
     counted := .IDLE
     slot := profile.reqauth_idle
     prec := profile.reqauth_idle_prec
     picker := .pick_random_any }]

/-- `bt_peerpick_relay_profile_t`. -/
structure RelayProfile where
  reqauth_give : Slot
  reqauth_give_prec : ℚ
  reqauth_fstart : Slot
  reqauth_fstart_prec : ℚ
  reqauth_idle : Slot
  reqauth_idle_prec : ℚ

/-- `bt_peerpick_relay_t::peerpick_update`. -/
def RelayProfile.peerpickUpdate (profile : RelayProfile) : List Pick :=
  [{ reqauth_type := .GIVE
     counted := .GIVE
     slot := profile.reqauth_give
     prec := profile.reqauth_give_prec
     picker := .pick_highest_giver },
   { reqauth_type := .FSTART
     counted := .FSTART
     slot := profile.reqauth_fstart
     prec := profile.reqauth_fstart_prec
     picker := .pick_random_fstart },
   { reqauth_type := .IDLE
     counted := .IDLE
     slot := profile.reqauth_idle
     prec := profile.reqauth_idle_prec
     picker := .pick_random_any }]

/-- `bt_peerpick_casti_profile_t`. -/
structure CastiProfile where
  reqauth_hope : Slot

/-- `rate_sched_t::INFINITE_RATE`, which is `FLT_MAX`. -/
def INFINITE_RATE : ℚ := (2 ^ 24 - 1) * 2 ^ 104

/-- The `balance` of a candidate of `bt_peerpick_casti_t`. -/
def Now.balance (now : Now) (id : ℕ) : ℚ :=
  match now.byteacct id with
  | none => 0
  | some b =>
    if !b.rate_available then 0
    else if b.xmit_rate ≤ b.recv_rate then 0
    else b.xmit_rate - b.recv_rate

namespace CastiProfile

/-- `nbcnx_2launch` before the authorised ones are taken off. -/
def nbcnx2launch (profile : CastiProfile) (now : Now) : ℕ :=
  match now.xmit_max_rate with
  | none => profile.reqauth_hope.max
  | some max_rate =>
    if max_rate = INFINITE_RATE then profile.reqauth_hope.max
    else if now.cnx_minrate = 0 then profile.reqauth_hope.max
    else min profile.reqauth_hope.max (max ⌊max_rate / now.cnx_minrate⌋₊ 1)

/-- The candidates, from the greater balance to the lowest. -/
def candFullDb (now : Now) (db : FullDb) : List ℕ :=
  ((Now.candidates db fun _ => true).insertionSort fun id id' =>
    now.balance id ≤ now.balance id').reverse

/-- `bt_peerpick_casti_t::peerpick_update`. -/
def peerpickUpdate (profile : CastiProfile) (now : Now) (db : FullDb) : FullDb :=
  if profile.nbcnx2launch now ≤ db.nb .HOPE then db
  else
    ((candFullDb now db).take (profile.nbcnx2launch now - db.nb .HOPE)).foldl (fun db id =>
      db.modify id fun c =>
        (c.setReqauthType .HOPE profile.reqauth_hope.timeout).syncDoauthReqCmd) db

end CastiProfile

/-- `peerpick_vapi_t`. -/
inductive PeerpickVapi
  | plain (profile : PlainProfile)
  | casto (profile : CastoProfile)
  | relay (profile : RelayProfile)
  | casti (profile : CastiProfile)

namespace PeerpickVapi

/-- The part of the profile which is about a kind. -/
def slot : PeerpickVapi → ReqauthType → Option Slot
  | .plain profile, .COOP => some profile.reqauth_coop
  | .plain profile, .HOPE => some profile.reqauth_hope
  | .plain profile, .GIVE => some profile.reqauth_give
  | .casto profile, .COOP => some profile.reqauth_coop
  | .casto profile, .HOPE => some profile.reqauth_hope
  | .casto profile, .FSTART => some profile.reqauth_fstart
  | .casto profile, .IDLE => some profile.reqauth_idle
  | .relay profile, .GIVE => some profile.reqauth_give
  | .relay profile, .FSTART => some profile.reqauth_fstart
  | .relay profile, .IDLE => some profile.reqauth_idle
  | .casti profile, .HOPE => some profile.reqauth_hope
  | _, _ => none

/-- The calls of `pick_many_cnx` of an update. -/
def picks : PeerpickVapi → Bool → List Pick
  | .plain profile, is_seed =>
    if is_seed then profile.peerSelectUpdateSeed else profile.peerSelectUpdateLeech
  | .casto profile, _ => profile.peerpickUpdate
  | .relay profile, _ => profile.peerpickUpdate
  | .casti _, _ => []

/-- `peerpick_update`. -/
def peerpickUpdate (vapi : PeerpickVapi) (now : Now) (is_seed : Bool) (db : FullDb) : FullDb :=
  match vapi with
  | .casti profile => profile.peerpickUpdate now db
  | vapi => pickAll now (vapi.picks is_seed) db

end PeerpickVapi

/-! ### The swarm -/

/-- The part of a `bt_swarm_t` which peer picking reads. -/
structure Swarm where
  full_db : FullDb
  is_seed : Bool

namespace Swarm

def init (is_seed : Bool) : Swarm where
  full_db := KeyedDb.empty
  is_seed := is_seed

/-- `peer_select_update`. -/
def peerSelectUpdate (vapi : PeerpickVapi) (now : Now) (s : Swarm) : Swarm :=
  { s with full_db := vapi.peerpickUpdate now s.is_seed s.full_db }

def modify (s : Swarm) (id : ℕ) (f : Cnx → Cnx) : Swarm :=
  { s with full_db := s.full_db.modify id f }

/-- `bt_swarm_sched_full_t::parse_cnx_closed`, of an authorised connection. -/
def parseCnxClosed (vapi : PeerpickVapi) (now : Now) (id : ℕ) (s : Swarm) : Swarm :=
  ((s.modify id fun c => c.setReqauthType .NONE Delay.NEVER).peerSelectUpdate vapi now).modify id
    Cnx.syncDoauthReqCmd

/-- `bt_swarm_full_t::~bt_swarm_full_t`. -/
def close (vapi : PeerpickVapi) (now : Now) (id : ℕ) (s : Swarm) : Swarm :=
  match s.full_db.get id with
  | none => s
  | some c =>
    let s :=
      if c.notified_as_open && c.reqauth_type ≠ .DENY then s.parseCnxClosed vapi now id else s
    { s with full_db := s.full_db.erase id }

/-- `bt_swarm_sched_full_t::parse_reqauth_timedout`. -/
def parseReqauthTimedout (vapi : PeerpickVapi) (now : Now) (id : ℕ) (s : Swarm) : Swarm :=
  ((s.modify id fun c => c.setReqauthType .DENY Delay.NEVER).peerSelectUpdate vapi now).modify id
    fun c =>
      if c.reqauth_type = .DENY then c.syncDoauthReqCmd.setReqauthPrecXmit 0
      else c.syncDoauthReqCmd

/-- The timeout of an authorisation expires, if it ever does. -/
def timeoutExpire (vapi : PeerpickVapi) (now : Now) (id : ℕ) (s : Swarm) : Swarm :=
  match (s.full_db.get id).bind Cnx.reqauth_timeout with
  | none => s
  | some period => if period = Delay.NEVER then s else s.parseReqauthTimedout vapi now id

/-- `bt_swarm_full_t::parse_dowant_req_cmd`, and `parse_dowant_req`. -/
def parseDowantReqCmd (vapi : PeerpickVapi) (now : Now) (id : ℕ) (s : Swarm) : Swarm :=
  (s.modify id fun c => { c with other_dowant_req := true }).peerSelectUpdate vapi now

/-- Has the connection been notified as open?  No command is parsed before. -/
def isOpen (s : Swarm) (id : ℕ) : Bool :=
  ((s.full_db.get id).map Cnx.notified_as_open).getD false

end Swarm

/-- What happens to the connections, and to the local pieces. -/
inductive Event
  | start (id : ℕ)
  | notify_cnx_open (id : ℕ)
  | close (id : ℕ) (now : Now)
  | dowant_req (id : ℕ) (now : Now)
  | unwant_req (id : ℕ)
  | reqauth_timeout (id : ℕ) (now : Now)
  | local_pavail (is_seed : Bool)

namespace Swarm

def step (vapi : PeerpickVapi) (s : Swarm) : Event → Swarm
  | .start id => { s with full_db := s.full_db.push id Cnx.start }
  | .notify_cnx_open id => s.modify id fun c => { c with notified_as_open := true }
  | .close id now => s.close vapi now id
  | .dowant_req id now => if s.isOpen id then s.parseDowantReqCmd vapi now id else s
  | .unwant_req id => s.modify id fun c => { c with other_dowant_req := false }
  | .reqauth_timeout id now => s.timeoutExpire vapi now id
  | .local_pavail is_seed => { s with is_seed := is_seed }

end Swarm

end Neoip.Peerpick
